import DropletFs.Framework.Retry
import DropletFs.Model.Remote

/-! `timeout.c`: the calls that change the store, made again when they fail. -/

namespace DropletFs

open CText Retry

/-- A failure of the connection, which no wrapper takes for an answer. -/
def Status.Transient (rc : Status) : Prop := rc ≠ .success ∧ rc ≠ .enoent ∧ rc ≠ .eisdir

abbrev Loss := { rc : Status // rc.Transient }

/-- The calls of libdroplet that change the store. -/
structure Mutations (σ : Type) where
  setattr : Path → Dict → σ → Status × σ
  mknod : Path → σ → Status × σ
  mkdir : Path → σ → Status × σ
  unlink : Path → σ → Status × σ
  rmdir : Path → σ → Status × σ
  fcopy : Path → Path → σ → Status × σ

/-- The calls on the store of `Model.Remote`, each of which goes through. -/
def dplMutations : Mutations Store where
  setattr path metadata st := dplSetattr Env.quiet st path metadata
  mknod path st := dplMknod Env.quiet st path
  mkdir path st := dplMkdir Env.quiet st path
  unlink path st := dplUnlink Env.quiet st path
  rmdir path st := dplRmdir Env.quiet st path
  fcopy oldpath newpath st := dplFcopy Env.quiet st oldpath newpath

/-- The statuses most of the wrappers return at once. -/
def successOrEnoent (rc : Status) : Bool := rc = .success || rc = .enoent

section Wrappers

variable {σ : Type}

/-- `retry:` and the test below it: `tries` counts the calls that have failed. -/
def retryTimeout (maxRetry : Int) (stops : Status → Bool) (call : σ → Status × σ)
    (pattern : Nat → Attempt Loss) (st : σ) : Status × σ :=
  Retry.loop Subtype.val call stops pattern maxRetry.toNat 0 st

variable (dpl : Mutations σ) (maxRetry : Int) (pattern : Nat → Attempt Loss) (st : σ)

def dfsSetattrTimeout (path : Path) (metadata : Dict) : Status × σ :=
  retryTimeout maxRetry (fun rc => rc = .success || rc = .eisdir) (dpl.setattr path metadata)
    pattern st

def dfsMknodTimeout (path : Path) : Status × σ :=
  retryTimeout maxRetry (fun rc => rc = .success) (dpl.mknod path) pattern st

def dfsMkdirTimeout (path : Path) : Status × σ :=
  retryTimeout maxRetry successOrEnoent (dpl.mkdir path) pattern st

def dfsUnlinkTimeout (path : Path) : Status × σ :=
  retryTimeout maxRetry successOrEnoent (dpl.unlink path) pattern st

def dfsRmdirTimeout (path : Path) : Status × σ :=
  retryTimeout maxRetry successOrEnoent (dpl.rmdir path) pattern st

def dfsFcopyTimeout (oldpath newpath : Path) : Status × σ :=
  retryTimeout maxRetry successOrEnoent (dpl.fcopy oldpath newpath) pattern st

end Wrappers

/-- The calls that change the store. -/
inductive Mutation
  | setattr (path : Path) (metadata : Dict)
  | mknod (path : Path)
  | mkdir (path : Path)
  | unlink (path : Path)
  | rmdir (path : Path)
  | fcopy (oldpath newpath : Path)

namespace Mutation

variable {σ : Type}

/-- One call. -/
def call (dpl : Mutations σ) : Mutation → σ → Status × σ
  | setattr path metadata => dpl.setattr path metadata
  | mknod path => dpl.mknod path
  | mkdir path => dpl.mkdir path
  | unlink path => dpl.unlink path
  | rmdir path => dpl.rmdir path
  | fcopy oldpath newpath => dpl.fcopy oldpath newpath

/-- The wrapper of a call. -/
def timeout (dpl : Mutations σ) (maxRetry : Int) (pattern : Nat → Attempt Loss) (st : σ) :
    Mutation → Status × σ
  | setattr path metadata => dfsSetattrTimeout dpl maxRetry pattern st path metadata
  | mknod path => dfsMknodTimeout dpl maxRetry pattern st path
  | mkdir path => dfsMkdirTimeout dpl maxRetry pattern st path
  | unlink path => dfsUnlinkTimeout dpl maxRetry pattern st path
  | rmdir path => dfsRmdirTimeout dpl maxRetry pattern st path
  | fcopy oldpath newpath => dfsFcopyTimeout dpl maxRetry pattern st oldpath newpath

/-- The statuses its wrapper returns at once. -/
def stops : Mutation → Status → Bool
  | setattr _ _, rc => rc = .success || rc = .eisdir
  | mknod _, rc => rc = .success
  | _, rc => successOrEnoent rc

/-- The statuses of a call that has been carried out. -/
def carriedOut : Mutation → Status → Bool
  | setattr _ _, rc => rc = .success || rc = .eisdir
  | _, rc => rc = .success

theorem timeout_eq (dpl : Mutations σ) (m : Mutation) (maxRetry : Int)
    (pattern : Nat → Attempt Loss) (st : σ) :
    m.timeout dpl maxRetry pattern st =
      retryTimeout maxRetry m.stops (m.call dpl) pattern st := by
  cases m <;> rfl

end Mutation

/-- What is relied on of the store: a call that is refused changes nothing, and one that is carried
out once more gives the same answer and changes nothing more. -/
structure Mutations.Lawful {σ : Type} (dpl : Mutations σ) : Prop where
  refused : ∀ (m : Mutation) st, m.carriedOut (m.call dpl st).1 = false → (m.call dpl st).2 = st
  again : ∀ (m : Mutation) st, m.carriedOut (m.call dpl st).1 = true →
    m.carriedOut (m.call dpl (m.call dpl st).2).1 = true →
      m.call dpl (m.call dpl st).2 = m.call dpl st

end DropletFs
