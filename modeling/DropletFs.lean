import DropletFs.Framework.Run
import DropletFs.Framework.Fault
import DropletFs.Framework.Ring
import DropletFs.Framework.Text
import DropletFs.Framework.Paths
import DropletFs.Framework.Program
import DropletFs.Framework.Resources
import DropletFs.Framework.Overrides
import DropletFs.Framework.DirTree
import DropletFs.Framework.RefStore
import DropletFs.Framework.Stream
import DropletFs.Model.Types
import DropletFs.Model.Metadata
import DropletFs.Model.LocalFs
import DropletFs.Model.Remote
import DropletFs.Model.Hash
import DropletFs.Model.File
import DropletFs.Model.Open
import DropletFs.Model.Release
import DropletFs.Model.Getattr
import DropletFs.Model.Namespace
import DropletFs.Model.Rename
import DropletFs.Model.Gc
import DropletFs.Model.Daemon
import DropletFs.Model.Sample
import DropletFs.Model.Threads
import DropletFs.Model.Listing
import DropletFs.Model.Conf
import DropletFs.Model.Cachedir
import DropletFs.Model.Transfer
import DropletFs.Model.CacheTree
import DropletFs.Model.DictRefs
import DropletFs.Model.CellList
import DropletFs.Model.Tmpstr
import DropletFs.Model.Zip
import DropletFs.Cache.Frame
import DropletFs.Cache.Download
import DropletFs.Cache.Descriptors
import DropletFs.Table.Invariant
import DropletFs.Table.OpenSpec
import DropletFs.Table.Callbacks
import DropletFs.Table.Removal
import DropletFs.Table.Calls
import DropletFs.Table.Handles
import DropletFs.Table.Represents
import DropletFs.Table.Refcount
import DropletFs.Open.AccessMode
import DropletFs.Open.Content
import DropletFs.Release.Upload
import DropletFs.Release.RoundTrip
import DropletFs.Release.Attributes
import DropletFs.Release.Scratch
import DropletFs.Cells.Removal
import DropletFs.Cells.Filtering
import DropletFs.Cells.Dirents
import DropletFs.Zip.Loops
import DropletFs.Zip.Stored
import DropletFs.Zip.RoundTrip
import DropletFs.Strings.Lifetime
import DropletFs.Collector.Safety
import DropletFs.Collector.Whole
import DropletFs.Table.Reading
import DropletFs.Rename.Content
import DropletFs.Rename.ByValue
import DropletFs.Rename.Frame
import DropletFs.Rename.Forest
import DropletFs.Rename.Names
import DropletFs.Rename.Handles
import DropletFs.Rename.Merge
import DropletFs.Rename.Tree
import DropletFs.Rename.Texts
import DropletFs.Rename.Lossless
import DropletFs.Table.Codec
import DropletFs.Table.Changes
import DropletFs.Table.Entries
import DropletFs.Table.Origins
import DropletFs.Release.Whole
import DropletFs.Open.LocalCopy
import DropletFs.Open.CacheTree
import DropletFs.Table.Descriptors
import DropletFs.Table.Stat
import DropletFs.Table.Lasting
import DropletFs.Table.Restat
import DropletFs.Table.Filetype
import DropletFs.Table.Dirents
import DropletFs.Table.Garbage
import DropletFs.Table.Shown
import DropletFs.Durable.Upload
import DropletFs.Durable.Opening
import DropletFs.Durable.Ledger
import DropletFs.Durable.Steps
import DropletFs.Durable.Run
import DropletFs.Durable.Kept
import DropletFs.Release.Undo
import DropletFs.Remote.Calls
import DropletFs.Remote.Retries
import DropletFs.Remote.Listings
import DropletFs.Remote.Symlinks
import DropletFs.Remote.Preload
import DropletFs.Settings.Reading
import DropletFs.Settings.Effective
import DropletFs.Settings.Trimming
import DropletFs.Settings.Independence
import DropletFs.Settings.Lines
import DropletFs.Settings.Order
import DropletFs.Cache.Names
import DropletFs.Cache.Transfer
import DropletFs.Table.Creation
import DropletFs.Table.Dictionaries
import DropletFs.Model.Parents
import DropletFs.Table.Parents
import DropletFs.Table.Assertions
import DropletFs.Table.Locks
import DropletFs.Remote.Refresh
import DropletFs.Model.Destroy
import DropletFs.Cache.Leftovers
import DropletFs.Table.Unmount
import DropletFs.Table.Footprint
import DropletFs.Framework.PlainFiles
import DropletFs.Plain.Shown
import DropletFs.Plain.Handles
import DropletFs.Plain.Steps
import DropletFs.Plain.Refinement
