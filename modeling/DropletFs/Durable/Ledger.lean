import DropletFs.Durable.Opening
import DropletFs.Durable.Upload
import DropletFs.Open.Content

/-! The bytes `dfs_write` has accepted, and the invariant that keeps them in the store or in
the cache. -/

namespace DropletFs

open CText LocalFs

/-- The byte last accepted at each offset of a file, since the file was last made anew. -/
abbrev Accepted := Nat → Option UInt8

abbrev Ledger := Path → Accepted

namespace Ledger

def empty : Ledger := fun _ _ => none

def record (E : Ledger) (path : Path) (offset : Nat) (buf : Bytes) : Ledger :=
  Function.update E path fun i =>
    if offset ≤ i ∧ i < offset + buf.length then buf[i - offset]? else E path i

def forget (E : Ledger) (path : Path) : Ledger := Function.update E path fun _ => none

end Ledger

/-- The open makes the cache file of the path anew. -/
def opensAnew (cx : Ctx) (env : Env) (w : World) (path : Path) (flags : OpenFlags) : Bool :=
  getModeFromFlags flags = .creat &&
    match dfsOpen cx env w path flags with
    | .ok (0, some _, _) => true
    | _ => false

/-- `dfs_create` gets as far as its open. -/
def createOpens (cx : Ctx) (env : Env) (w : World) (path : Path) (mode : Nat) : Bool :=
  sIsreg mode && (cx.conf.regex path || (dplNamei env w.store path).1 = .success ||
    (dplNamei env w.store path).1 = .enoent)

/-- What has been accepted once a call has returned `ret`. -/
def Ledger.after (cx : Ctx) (d : Daemon) (c : Call) (ret : Int) (E : Ledger) : Ledger :=
  match c.op with
  | .open path flags => if opensAnew cx c.env d.world path flags then E.forget path else E
  | .create path mode flags =>
    if createOpens cx c.env d.world path mode && opensAnew cx c.env d.world path flags
    then E.forget path else E
  | .write i buf offset =>
    match d.handles[i]? with
    | some h => if 0 ≤ ret then E.record h.path offset (buf.take ret.toNat) else E
    | none => E
  | _ => E

/-- The daemon and the ledger, side by side. -/
def trackedStep (cx : Ctx) (s : Daemon × Ledger) (c : Call) :
    Except Fault (Daemon × Ledger) :=
  (s.1.call cx c).map fun (ret, d) => (d, s.2.after cx s.1 c ret)

/-- The ledger does not change what the daemon does. -/
theorem trackedStep_fst {cx : Ctx} {s : Daemon × Ledger} {c : Call} :
    (trackedStep cx s c).map (·.1) = s.1.step cx c := by
  unfold trackedStep Daemon.step
  cases s.1.call cx c <;> rfl

/-- The accepted bytes are in place in `data`. -/
def Accepted.In (e : Accepted) (data : Bytes) : Prop := ∀ i b, e i = some b → data[i]? = some b

namespace World

/-- The object of the path stands for data that has the accepted bytes in place. -/
def Stores (cx : Ctx) (w : World) (path : Path) (e : Accepted) : Prop :=
  ∀ i b, e i = some b → ∃ o data, w.store.lookup path = some o ∧ decode cx o = some data ∧
    data[i]? = some b

/-- The object of an entry's path stands for the content of its cache file. -/
def Synced (cx : Ctx) (w : World) (pe : Entry) : Prop :=
  ∃ o data, w.store.lookup pe.path = some o ∧ decode cx o = some data ∧
    pe.fd.bind w.fs.content = some data

/-- No cache file, but for that of `path`, is under one of the names. -/
def FreeOf (w : World) (path : Option Path) (names : List Path) : Prop :=
  ∀ a pe fd i, w.heap a = some pe → path ≠ some pe.path → pe.fd = some fd →
    w.fs.inodeOf fd = some i → ∀ n ∈ names, w.fs.files n ≠ some i

end World

/-- What holds of one entry that is not excluded. -/
structure EntryOk (cx : Ctx) (d : Daemon) (E : Ledger) (a : Addr) (pe : Entry) : Prop where
  clean : pe.flag = .clean → d.world.Synced cx pe
  settled : pe.ondisk = .loc → d.world.Synced cx pe ∨ d.handlesOn a < pe.refcount ∨
    ∃ h ∈ d.handles, h.addr = a ∧ h.flags.acc ≠ .rdonly
  cached : ∀ data, pe.fd.bind d.world.fs.content = some data → (E pe.path).In data
  stored : pe.ondisk ≠ .loc → d.world.Stores cx pe.path (E pe.path)

structure Durable (cx : Ctx) (d : Daemon) (E : Ledger) : Prop where
  table : d.world.Inv
  live : d.Live
  apart : ∀ a b pe qe fd gd i, d.world.heap a = some pe → d.world.heap b = some qe →
    pe.fd = some fd → qe.fd = some gd → d.world.fs.inodeOf fd = some i →
    d.world.fs.inodeOf gd = some i → a = b
  excluded : ∀ a pe, d.world.heap a = some pe → pe.exclude = true →
    cx.conf.regex pe.path = true
  entry : ∀ a pe, d.world.heap a = some pe → cx.conf.regex pe.path = false →
    EntryOk cx d E a pe
  absent : ∀ p, d.world.hash p = none → cx.conf.regex p = false → d.world.Stores cx p (E p)

/-- A step on the entry `a` of `path` leaves everything else as it is. -/
structure Elsewhere (a : Addr) (path : Path) (d d' : Daemon) : Prop where
  hash : d'.world.hash = d.world.hash
  heap : ∀ b, b ≠ a → d'.world.heap b = d.world.heap b
  file : ∀ b qe fd, b ≠ a → d.world.heap b = some qe → qe.fd = some fd →
    d'.world.fs.inodeOf fd = d.world.fs.inodeOf fd ∧
    d'.world.fs.content fd = d.world.fs.content fd
  store : ∀ q, q ≠ path → d'.world.store.lookup q = d.world.store.lookup q
  handles : ∀ b, b ≠ a → d'.handlesOn b = d.handlesOn b ∧
    ∀ h ∈ d.handles, h.addr = b → h ∈ d'.handles

section

variable {cx : Ctx} {d d' : Daemon} {E E' : Ledger} {a : Addr} {path : Path}

theorem World.Stores.congr {w w' : World} {e : Accepted}
    (h : w.Stores cx path e) (hs : w'.store.lookup path = w.store.lookup path) :
    w'.Stores cx path e := by
  intro i b hb
  obtain ⟨o, data, ho, hd⟩ := h i b hb
  exact ⟨o, data, hs.trans ho, hd⟩

theorem World.Synced.congr {w w' : World} {pe pe' : Entry} (h : w.Synced cx pe)
    (hp : pe'.path = pe.path) (hs : w'.store.lookup pe.path = w.store.lookup pe.path)
    (hc : pe'.fd.bind w'.fs.content = pe.fd.bind w.fs.content) : w'.Synced cx pe' := by
  obtain ⟨o, data, ho, hd, hcont⟩ := h
  exact ⟨o, data, by rw [hp, hs, ho], hd, hc.trans hcont⟩

/-- What holds of the other entries still holds. -/
theorem EntryOk.elsewhere {b : Addr} {qe : Entry} (h : EntryOk cx d E b qe)
    (hx : Elsewhere a path d d') (hne : b ≠ a) (hb : d.world.heap b = some qe)
    (hp : qe.path ≠ path) (hE : E' qe.path = E qe.path) : EntryOk cx d' E' b qe := by
  have hstore := hx.store qe.path hp
  have hcont : qe.fd.bind d'.world.fs.content = qe.fd.bind d.world.fs.content := by
    cases hfd : qe.fd with
    | none => rfl
    | some fd => exact (hx.file b qe fd hne hb hfd).2
  obtain ⟨hcount, hmem⟩ := hx.handles b hne
  have hsync : d.world.Synced cx qe → d'.world.Synced cx qe :=
    fun hs => hs.congr rfl hstore hcont
  refine ⟨fun hc => hsync (h.clean hc), fun hl => ?_, fun data hd => ?_, fun hl => ?_⟩
  · rcases h.settled hl with hs | hs | ⟨g, hg, hga, hacc⟩
    · exact .inl (hsync hs)
    · exact .inr (.inl (hcount ▸ hs))
    · exact .inr (.inr ⟨g, hmem g hg hga, hga, hacc⟩)
  · rw [hE]
    exact h.cached data (hcont ▸ hd)
  · rw [hE]
    exact (h.stored hl).congr hstore

/-- A step on one entry keeps the invariant when it does for that entry. -/
theorem Durable.own {pe pe' : Entry} (hD : Durable cx d E) (hx : Elsewhere a path d d')
    (ha : d.world.heap a = some pe) (hp : pe.path = path) (ha' : d'.world.heap a = some pe')
    (hp' : pe'.path = path) (hi : d'.world.Inv) (hl : d'.Live)
    (hino : ∀ b qe fd gd i, b ≠ a → d.world.heap b = some qe → qe.fd = some fd →
      pe'.fd = some gd → d.world.fs.inodeOf fd = some i → d'.world.fs.inodeOf gd ≠ some i)
    (hex : pe'.exclude = true → cx.conf.regex path = true)
    (hE : ∀ q, q ≠ path → E' q = E q)
    (hown : cx.conf.regex path = false → EntryOk cx d' E' a pe') : Durable cx d' E' := by
  have hcase : ∀ b qe, d'.world.heap b = some qe →
      b = a ∧ qe = pe' ∨ b ≠ a ∧ d.world.heap b = some qe ∧ qe.path ≠ path := by
    intro b qe hb
    by_cases he : b = a
    · subst he
      rw [ha', Option.some.injEq] at hb
      exact .inl ⟨rfl, hb.symm⟩
    · rw [hx.heap b he] at hb
      refine .inr ⟨he, hb, fun hpe => he ?_⟩
      have h1 := hD.table.linked b qe hb
      have h2 := hD.table.linked a pe ha
      rw [hpe, ← hp, h2, Option.some.injEq] at h1
      exact h1.symm
  refine ⟨hi, hl, ?_, ?_, ?_, ?_⟩
  · intro b c qe re fd gd i hb hc hfd hgd hi1 hi2
    rcases hcase b qe hb with ⟨rfl, rfl⟩ | ⟨hbn, hb', _⟩ <;>
      rcases hcase c re hc with ⟨rfl, rfl⟩ | ⟨hcn, hc', _⟩
    · rfl
    · rw [(hx.file c re gd hcn hc' hgd).1] at hi2
      exact (hino c re gd fd i hcn hc' hgd hfd hi2 hi1).elim
    · rw [(hx.file b qe fd hbn hb' hfd).1] at hi1
      exact (hino b qe fd gd i hbn hb' hfd hgd hi1 hi2).elim
    · rw [(hx.file b qe fd hbn hb' hfd).1] at hi1
      rw [(hx.file c re gd hcn hc' hgd).1] at hi2
      exact hD.apart b c qe re fd gd i hb' hc' hfd hgd hi1 hi2
  · intro b qe hb hq
    rcases hcase b qe hb with ⟨rfl, rfl⟩ | ⟨_, hb', _⟩
    · rw [hp']
      exact hex hq
    · exact hD.excluded b qe hb' hq
  · intro b qe hb hr
    rcases hcase b qe hb with ⟨rfl, rfl⟩ | ⟨hbn, hb', hq⟩
    · exact hown (hp' ▸ hr)
    · exact (hD.entry b qe hb' hr).elsewhere hx hbn hb' hq (hE _ hq)
  · intro p hn hr
    rw [hx.hash] at hn
    have hne : p ≠ path := by
      rintro rfl
      have := hD.table.linked a pe ha
      rw [hp, hn] at this
      cases this
    rw [hE p hne]
    exact (hD.absent p hn hr).congr (hx.store p hne)

/-- A new entry is not cached, and what was accepted is where it was. -/
theorem Durable.looked {env : Env} {type : TPathType} {u : World} (hD : Durable cx d E)
    (h : Looked env type d.world path a u) :
    Durable cx ⟨u, d.handles⟩ E := by
  rcases h.cases with rfl | ⟨hn, rfl, rfl⟩
  · exact hD
  have hli := hD.live.of_keeps h.keeps
  have hcase : ∀ b qe, (d.world.insertEntry path (pentryNew env path type)).heap b = some qe →
      b = d.world.brk ∧ qe = pentryNew env path type ∨ d.world.heap b = some qe := by
    intro b qe hb
    by_cases he : b = d.world.brk
    · subst he
      simp only [World.insertEntry, Function.update_self, Option.some.injEq] at hb
      exact .inl ⟨rfl, hb.symm⟩
    · simp only [World.insertEntry, Function.update_of_ne he] at hb
      exact .inr hb
  refine ⟨h.inv, hli, ?_, ?_, ?_, ?_⟩
  · intro b c qe re fd gd i hb hc hfd hgd hi1 hi2
    rcases hcase b qe hb with ⟨_, rfl⟩ | hb'
    · cases hfd
    rcases hcase c re hc with ⟨_, rfl⟩ | hc'
    · cases hgd
    exact hD.apart b c qe re fd gd i hb' hc' hfd hgd hi1 hi2
  · intro b qe hb hq
    rcases hcase b qe hb with ⟨_, rfl⟩ | hb'
    · cases hq
    · exact hD.excluded b qe hb' hq
  · intro b qe hb hr
    rcases hcase b qe hb with ⟨_, rfl⟩ | hb'
    · refine ⟨fun hc => (by cases hc), fun hl => (by cases hl), ?_, fun _ => ?_⟩
      · rintro data ⟨⟩
      · exact (hD.absent path hn hr).congr rfl
    · have he := hD.entry b qe hb' hr
      exact ⟨he.clean, he.settled, he.cached, he.stored⟩
  · intro p hp hr
    refine (hD.absent p ?_ hr).congr rfl
    by_cases he : p = path
    · rw [he]
      exact hn
    · simpa [World.insertEntry, he] using hp

end

end DropletFs
