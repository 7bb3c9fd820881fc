import DropletFs.Model.Sample
import DropletFs.Table.Callbacks

/-! `dfs_chmod` and `dfs_chown` that fail: what is left of them. -/

namespace DropletFs

section Change

variable {env : Env} {s t : World} {path : Path} {upd : Dict → Dict}
  {change : LocalFs → Nat → LocalFs} {call : SysCall} {pe : Entry} {md : Dict} {a : Addr}

/-- The entry with the change written to its dictionary. -/
def Entry.changed (pe : Entry) (md : Dict) : Entry := { pe with usermd := some md }

end Change

section Files

variable {fs : LocalFs} {fd : Nat}

end Files

end DropletFs
