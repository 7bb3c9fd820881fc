import DropletFs.Model.Daemon

/-! The end of a mount, in `dropletfs.c`. -/

namespace DropletFs

open CText

namespace World

/-- The keys of the table in an order `g_hash_table_foreach` may take them. -/
structure Keys (s : World) (keys : List Path) : Prop where
  nodup : keys.Nodup
  mem : ∀ path, path ∈ keys ↔ (s.hash path).isSome

/-- `g_hash_table_foreach(hash, cb_hash_unlink, NULL)`. -/
def removeCacheFiles (cx : Ctx) (env : Env) (s : World) (keys : List Path) : World :=
  keys.foldl (fun s path =>
    match s.entry path with
    | some pe => s.cbHashUnlink cx env pe
    | none => s) s

/-- `g_hash_table_remove_all`: every entry goes to `pentry_free`. -/
def removeAll (s : World) (keys : List Path) : World := keys.foldl hashRemove s

end World

/-- `dfs_destroy` on the table, whose keys are visited in the order given. -/
def dfsDestroy (cx : Ctx) (env : Env) (s : World) (keys : List Path) : World :=
  (s.removeCacheFiles cx env keys).removeAll keys

end DropletFs
