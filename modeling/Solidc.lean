import Solidc.Arena.Batch
import Solidc.Arena.Disjoint
import Solidc.Arena.Wrapping
import Solidc.Cache.Loading
import Solidc.Cache.Refcount
import Solidc.Cache.Reload
import Solidc.Cache.SecondChance
import Solidc.Containers.Capacities
import Solidc.Containers.Dynarray
import Solidc.Containers.InsertBefore
import Solidc.Containers.LinkedList
import Solidc.Containers.Slist
import Solidc.Csv.Fields
import Solidc.Csv.RoundTrip
import Solidc.Csv.Storing
import Solidc.Dotenv.Load
import Solidc.Filepath.Expanding
import Solidc.Filepath.Naming
import Solidc.Filepath.Visiting
import Solidc.Flags.Accounting
import Solidc.Flags.Numbers
import Solidc.Flags.Registering
import Solidc.Flags.Spellings
import Solidc.Hash.Hashes
import Solidc.Hashset.Operations
import Solidc.Lib.Cells
import Solidc.Lib.Distances
import Solidc.Lib.EditTable
import Solidc.Lib.Expansion
import Solidc.Lib.Marks
import Solidc.Lib.Quoting
import Solidc.Lib.Radix
import Solidc.Lib.Scientific
import Solidc.Lock.RwLock
import Solidc.Map.Growth
import Solidc.Map.Probing
import Solidc.Process.CommandLine
import Solidc.Process.Composition
import Solidc.Process.Multiwriter
import Solidc.Slice.Casing
import Solidc.Slice.Doubles
import Solidc.Slice.Numbers
import Solidc.Slice.Views
import Solidc.Streams.Copying
import Solidc.Streams.Cursor
import Solidc.Streams.Delimited
import Solidc.Strsim.Damerau
import Solidc.Strsim.JaroWinkler
import Solidc.Strsim.Levenshtein
import Solidc.Text.Finding
import Solidc.Text.Mutators
import Solidc.Text.Numbers
import Solidc.Text.Padding
import Solidc.Text.SnakeWords
import Solidc.Text.Snakecase
import Solidc.Text.Splitting
import Solidc.Text.StrToNum
import Solidc.Text.Substrings
import Solidc.Text.Twins
import Solidc.Threadpool.Destroying
import Solidc.Threadpool.Fifo
import Solidc.Threadpool.Idle
import Solidc.Threadpool.Nested
import Solidc.Threadpool.Stealing
import Solidc.Threadpool.Waiting
import Solidc.Time.Arithmetic
import Solidc.Time.LocalOffset
import Solidc.Time.Parsing
import Solidc.Time.Periods
import Solidc.Time.Shifting
import Solidc.Time.Xtime
import Solidc.Trie.Allocating
import Solidc.Unicode.Casing
import Solidc.Unicode.Copying
import Solidc.Unicode.Reversing
import Solidc.Unicode.Scanning
import Solidc.Unicode.Splitting
import Solidc.Unicode.Trimming
