import DropletFs.Model.Sample
import DropletFs.Release.RoundTrip
import DropletFs.Table.Stat

/-! The attributes of a released file, read from the metadata and from the downloaded copy. -/

namespace DropletFs

open CText LocalFs

/-- An empty table over a store. -/
def Sample.fresh (st : Store) : Daemon := .init st Sample.fs Sample.ring

end DropletFs
