import Mathlib.Data.List.TakeWhile
import DropletFs.Model.Cachedir
import DropletFs.Table.Parents
import DropletFs.Table.Locks

/-! A pass of `cachedir_callback` over the table, and what the pool makes of the entries it
pushes. -/

namespace DropletFs

open CText LocalFs

/-- A pass over a table, and the tasks it pushes in the order they run in. The store answers. -/
structure Pass (s : World) where
  conf : Settings
  entrySize : Nat
  now : Path → Nat
  keys : List Path
  nodup : keys.Nodup
  mem_keys : ∀ key, key ∈ keys ↔ (s.hash key).isSome
  tasks : List PoolTask
  perm : (tasks.map (·.entry)).Perm (s.pushed conf entrySize now keys)
  remote : ∀ task ∈ tasks, task.env.RemoteOk

/-- The path a task looks up, given what the table was at the start. -/
def PoolTask.text (s : World) (task : PoolTask) : CStr :=
  ((s.heap task.entry).map (entryText task.behind)).getD []

/-- A first stat of the path gets the headers. -/
def PoolTask.answered (st : Store) (path : Path) (task : PoolTask) : Bool :=
  (st.lookup path).isSome && task.env.lib .getattrDict && task.env.lib .filterPrefix

/-- There is memory for a new entry. -/
def PoolTask.populates (task : PoolTask) : Bool :=
  task.env.lib .pentryNew && task.env.lib .strdupKey

/-- The attributes that a first stat makes up change nothing in the metadata of the object: what is
updated is there already. -/
def PoolTask.Unfilled (task : PoolTask) (o : Obj) : Prop :=
  task.env.lib .addSize = false ∧
    ∀ key v, Stat.field { setDefaultStat task.env o.ftype with nlink := 0 } key = some v →
      task.env.lib (.updateMeta key) = true → o.userMeta key = some (ulongText v)

/-- What a first stat keeps of the object is the metadata the object has. -/
def PoolTask.KeepsMeta (task : PoolTask) (o : Obj) : Prop :=
  task.env.lib .usermdDict = true ∧
    if task.env.lib .usermdCopy = true then (o.userMeta .size).isSome = true ∨ task.Unfilled o
    else o.userMeta = Dict.empty

/-- The tasks among these that look the path up. -/
def World.tasksOn (s : World) (tasks : List PoolTask) (path : Path) : List PoolTask :=
  if path = rootPath then [] else tasks.filter fun task => task.text s = path

/-- The first task among these that fills the entry of the path in. -/
def World.firstFill (s : World) (tasks : List PoolTask) (path : Path) : Option PoolTask :=
  match s.entry path with
  | some pe =>
    if pe.ondisk = .unset then (s.tasksOn tasks path).find? (·.answered s.store path) else none
  | none =>
    ((s.tasksOn tasks path).dropWhile fun task => !task.populates).find? (·.answered s.store path)

namespace Pass

variable {s : World} (pass : Pass s)

/-- The entry is old enough, and the table is not too large. -/
def Due (key : Path) (pe : Entry) : Prop :=
  ((pass.keys.length * (pass.entrySize + 64) : Nat) : Int) ≤ pass.conf.cacheMaxSize ∧
    pass.conf.scAgeThreshold ≤ (pass.now key : Int) - pe.atime

/-- The path is in the list of a directory that is due. -/
def Listed (path : Path) : Prop :=
  ∃ key dir, s.entry key = some dir ∧ pass.Due key dir ∧ s.store.ftype? key = some .dir ∧
    path ∈ dir.dirent

/-- The entries that are due have the metadata of their objects and a new access time, the others
are as they were. -/
structure Refreshes (t : World) : Prop where
  due : ∀ key pe o, s.entry key = some pe → pass.Due key pe → s.store.lookup key = some o →
    ∃ pe', t.entry key = some pe' ∧ pe'.usermd = some o.userMeta ∧
      ∃ task ∈ pass.tasks, pe'.atime = task.env.now
  others : ∀ key pe, s.entry key = some pe → ¬pass.Due key pe → ¬pass.Listed key →
    t.entry key = some pe

/-- What the entries read as is, by chance, the path of each that is due, and a stat of it does
what is to be done. -/
structure Spells : Prop where
  due : ∀ key pe o, s.entry key = some pe → pass.Due key pe → s.store.lookup key = some o →
    if s.tasksOn pass.tasks key = [] then
      pe.usermd = some o.userMeta ∧ ∃ task ∈ pass.tasks, pe.atime = task.env.now
    else
      match s.firstFill pass.tasks key with
      | none => pe.usermd = some o.userMeta
      | some task => task.KeepsMeta o
  others : ∀ key pe, s.entry key = some pe → ¬pass.Due key pe → ¬pass.Listed key →
    (∀ task, (s.tasksOn pass.tasks key).getLast? = some task →
      task.env.now = pe.atime ∧ s.firstFill pass.tasks key = none ∧
        (pe.ondisk = .remote → pe.usermd.isSome)) ∧
    ∀ path, parentDir path = some key → s.firstFill pass.tasks path = none

end Pass

section Visits

variable {w t : World} {task : PoolTask} {path key : Path} {ret : Int} {st : Stat}

/-- What a stat makes of the entry of its path. -/
def Visit (task : PoolTask) (st : Store) (pe qe : Entry) : Prop :=
  match pe.ondisk with
  | .remote => pe.mdLocked = false ∧
      qe = { pe with mdLocked := pe.usermd.isNone, atime := task.env.now }
  | .loc => qe = { pe with atime := task.env.now }
  | .unset =>
    if task.answered st pe.path then
      ∃ u, qe = { pe with
          usermd := u, filetype := .reg, ondisk := .remote, mdLocked := false,
          atime := task.env.now } ∧
        ∀ o, st.lookup pe.path = some o → (u = some o.userMeta ↔ task.KeepsMeta o)
    else qe = { pe with atime := task.env.now }

theorem visit_remote {store : Store} {pe qe : Entry} (ho : pe.ondisk = .remote) :
    Visit task store pe qe ↔ pe.mdLocked = false ∧
      qe = { pe with mdLocked := pe.usermd.isNone, atime := task.env.now } := by
  unfold Visit
  split
  · exact Iff.rfl
  · rename_i hx
    exact absurd (ho.symm.trans hx) (by decide)
  · rename_i hx
    exact absurd (ho.symm.trans hx) (by decide)

theorem visit_loc {store : Store} {pe qe : Entry} (ho : pe.ondisk = .loc) :
    Visit task store pe qe ↔ qe = { pe with atime := task.env.now } := by
  unfold Visit
  split
  · rename_i hx
    exact absurd (ho.symm.trans hx) (by decide)
  · exact Iff.rfl
  · rename_i hx
    exact absurd (ho.symm.trans hx) (by decide)

theorem visit_unset {store : Store} {pe qe : Entry} (ho : pe.ondisk = .unset) :
    Visit task store pe qe ↔
      if task.answered store pe.path = true then
        ∃ u, qe = { pe with
            usermd := u, filetype := .reg, ondisk := .remote, mdLocked := false,
            atime := task.env.now } ∧
          ∀ o, store.lookup pe.path = some o → (u = some o.userMeta ↔ task.KeepsMeta o)
      else qe = { pe with atime := task.env.now } := by
  unfold Visit
  split
  · rename_i hx
    exact absurd (ho.symm.trans hx) (by decide)
  · rename_i hx
    exact absurd (ho.symm.trans hx) (by decide)
  · exact Iff.rfl

theorem answered_iff (hok : task.env.RemoteOk) {st : Store} :
    task.answered st path = true ↔ ∃ o, Stated task.env st path o := by
  unfold PoolTask.answered
  simp only [Bool.and_eq_true, Option.isSome_iff_exists]
  constructor
  · intro ⟨⟨⟨o, ho⟩, h1⟩, h2⟩
    exact ⟨o, hok.remote _, hok.remote _, ho, h1, h2⟩
  · intro ⟨o, h⟩
    exact ⟨⟨⟨o, h.object⟩, h.getattrDict⟩, h.filterPrefix⟩

theorem PoolTask.unfilled_iff {o : Obj} (hsize : o.userMeta .size = none) (length : CStr) :
    (let dict := fillMetadataFromStat task.env o.userMeta
        { setDefaultStat task.env o.ftype with nlink := 0 }
      if task.env.lib .addSize = true then dict.set .size length else dict) = o.userMeta ↔
      task.Unfilled o := by
  dsimp only
  by_cases hadd : task.env.lib .addSize = true
  · rw [if_pos hadd]
    refine iff_of_false (fun he => ?_) fun h => ?_
    · have hkey := congrFun he .size
      rw [hsize, Dict.set, Function.update_self] at hkey
      cases hkey
    · rw [h.1] at hadd
      cases hadd
  · rw [if_neg hadd]
    constructor
    · intro he
      refine ⟨by simpa using hadd, fun key v hv hup => ?_⟩
      have hkey := congrFun he key
      rw [fillMetadataFromStat_apply, if_pos hup, hv] at hkey
      exact hkey.symm
    · intro h
      funext key
      rw [fillMetadataFromStat_apply]
      split_ifs with hup
      · cases hv : Stat.field { setDefaultStat task.env o.ftype with nlink := 0 } key with
        | none => rfl
        | some v => exact (h.2 key v hv hup).symm
      · rfl

/-- The dictionary made of the headers is the object's own when it has the size. -/
theorem keepsMeta_iff {o : Obj} {dict : Dict}
    (h : statOfHeaders task.env { setDefaultStat task.env o.ftype with nlink := 0 } o.headers =
      .ok (st, dict)) :
    keptUsermd task.env dict = some o.userMeta ↔ task.KeepsMeta o := by
  have hdict : dict = o.userMeta ↔ (o.userMeta .size).isSome = true ∨ task.Unfilled o := by
    unfold statOfHeaders at h
    dsimp only [Obj.headers] at h
    cases hs : o.userMeta .size with
    | some size =>
      rw [hs] at h
      simp only [Except.ok.injEq, Prod.mk.injEq] at h
      exact iff_of_true h.2.symm (.inl rfl)
    | none =>
      rw [hs] at h
      dsimp only at h
      split at h
      · cases h
      · rename_i length _
        simp only [Except.ok.injEq, Prod.mk.injEq] at h
        rw [← h.2, task.unfilled_iff hs length]
        simp
  unfold keptUsermd PoolTask.KeepsMeta
  cases task.env.lib .usermdDict with
  | false => simp
  | true =>
    cases task.env.lib .usermdCopy with
    | false =>
      simp only [Bool.not_true, Bool.not_false, Bool.false_eq_true, if_false, if_true, true_and,
        Option.some.injEq]
      exact eq_comm
    | true =>
      simp only [Bool.not_true, Bool.false_eq_true, if_false, if_true, true_and, Option.some.injEq]
      exact hdict

theorem World.setEntry_entry_self {u : World} {a : Addr} (h : u.hash path = some a) (qe : Entry) :
    (u.setEntry a qe).entry path = some qe := by
  rw [World.entry, World.setEntry_hash, h, Option.bind_some, World.setEntry_heap_self]

theorem World.Inv.setEntry_entry_of_ne {u : World} {a : Addr} (hi : u.Inv)
    (h : u.hash path = some a) (hne : key ≠ path) (qe : Entry) :
    (u.setEntry a qe).entry key = u.entry key := by
  unfold World.entry
  rw [World.setEntry_hash]
  cases hk : u.hash key with
  | none => rfl
  | some b =>
    rw [Option.bind_some, Option.bind_some, World.setEntry_heap_of_ne (hi.addr_ne hne h hk)]

theorem Looked.entry_of_ne {env : Env} {type : TPathType} {s u : World} {a : Addr} (hi : s.Inv)
    (hl : Looked env type s path a u) (hne : key ≠ path) : u.entry key = s.entry key := by
  rcases hl.cases with rfl | ⟨hn, _, rfl⟩
  · rfl
  · unfold World.entry World.insertEntry
    dsimp only
    rw [Function.update_of_ne hne]
    cases hk : s.hash key with
    | none => rfl
    | some b =>
      obtain ⟨pe, hb, _⟩ := hi.entry key b hk
      have hb' : b ≠ s.brk := by
        intro he
        rw [he, hi.brk_free] at hb
        cases hb
      rw [Option.bind_some, Option.bind_some, Function.update_of_ne hb']

/-- A path is not its own directory. -/
theorem parentDir_ne (hr : path ≠ rootPath) : parentDir path ≠ some path := by
  intro h
  unfold parentDir at h
  obtain ⟨d, hd, he⟩ := Option.map_eq_some_iff.mp h
  split_ifs at he
  · exact hr he.symm
  · obtain ⟨x, hx, _⟩ := beforeLastSlash_some hd
    have hlen := congrArg List.length hx
    rw [he, List.length_append, List.length_cons] at hlen
    omega

theorem hashFillDirent_eq (w : World) (path : Path) : hashFillDirent w path =
    match parentDir path with
    | none => w
    | some dir => w.onEntry dir fun pe => pentryAddDirent pe path := by
  unfold hashFillDirent parentDir
  cases beforeLastSlash path with
  | none => rfl
  | some d => rfl

/-- The stat fills the entry of its path in. -/
def World.Fills (w : World) (task : PoolTask) (path : Path) : Prop :=
  path ≠ rootPath ∧ (w.entry path ≠ none ∨ task.populates = true) ∧
    (w.entryOr task.env path (task.env.rawType path)).ondisk = .unset ∧
    task.answered w.store path = true

/-- What a stat makes of the table. -/
structure Visited (w : World) (task : PoolTask) (path : Path) (t : World) : Prop where
  inv : t.Inv
  store : t.store = w.store
  self : path ≠ rootPath → w.entry path ≠ none ∨ task.populates = true →
    ∃ qe, t.entry path = some qe ∧
      Visit task w.store (w.entryOr task.env path (task.env.rawType path)) qe
  absent : path = rootPath ∨ w.entry path = none ∧ task.populates = false →
    t.entry path = w.entry path
  other : ∀ key, key ≠ path → ¬(w.Fills task path ∧ parentDir path = some key) →
    t.entry key = w.entry key
  parent : ∀ key, parentDir path = some key → w.Fills task path →
    t.entry key = (w.entry key).map fun pe => pentryAddDirent pe path

theorem lookupOrPopulate_isSome (env : Env) (path : Path) (hi : w.Inv) :
    lookupOrPopulate env w path (env.rawType path) ≠ none ↔
      w.entry path ≠ none ∨ (env.lib .pentryNew && env.lib .strdupKey) = true := by
  unfold lookupOrPopulate World.entry
  cases hh : w.hash path with
  | some a =>
    obtain ⟨pe, ha, _⟩ := hi.entry path a hh
    simp [ha]
  | none =>
    unfold populateHash
    cases hp : (env.lib .pentryNew && env.lib .strdupKey) with
    | true => simp
    | false => simp

theorem dfsGetattr_visited (hi : w.Inv) (hok : task.env.RemoteOk)
    (h : dfsGetattr task.env w path = .ok (ret, st, t)) : Visited w task path t := by
  have hti := (dfsGetattr_inv hi h).1
  have hlook := lookupOrPopulate_isSome task.env path hi
  -- a stat that changes the entry of its path and no other
  have hone : ∀ {type : TPathType} {a : Addr} {u : World} {qe : Entry}, path ≠ rootPath →
      Looked task.env type w path a u →
      t = u.setEntry a qe →
      Visit task w.store (w.entryOr task.env path (task.env.rawType path)) qe →
      ¬w.Fills task path →
      lookupOrPopulate task.env w path (task.env.rawType path) ≠ none → Visited w task path t := by
    intro type a u qe hr hl ht hv hno hsome
    refine ⟨hti, by rw [ht]; exact hl.store, fun _ _ => ⟨qe, ?_, hv⟩, ?_, ?_, ?_⟩
    · rw [ht]
      exact World.setEntry_entry_self hl.hash qe
    · intro hab
      rcases hab with he | ⟨hn, hp⟩
      · exact (hr he).elim
      · rcases hlook.mp hsome with hs | hs
        · exact (hs hn).elim
        · rw [show (task.env.lib .pentryNew && task.env.lib .strdupKey) = false from hp] at hs
          cases hs
    · intro key hne _
      rw [ht, hl.inv.setEntry_entry_of_ne hl.hash hne, hl.entry_of_ne hi hne]
    · intro key _ hf
      exact (hno hf).elim
  cases dfsGetattr_cases h with
  | root hr =>
    refine ⟨hti, rfl, fun hn => (hn hr).elim, fun _ => rfl, fun _ _ _ => rfl, ?_⟩
    exact fun key _ hf => (hf.1 hr).elim
  | noEntry hl =>
    have hno : ¬(w.entry path ≠ none ∨ task.populates = true) := fun hs => hlook.mpr hs hl
    refine ⟨hti, rfl, fun _ hs => (hno hs).elim, fun _ => rfl, fun _ _ _ => rfl, ?_⟩
    exact fun key _ hf => (hno hf.2.1).elim
  | remote hr hl ha ho hg =>
    have hlk := lookupOrPopulate_spec hi hl
    obtain rfl := hlk.entryOr ha
    refine hone hr hlk rfl ?_ ?_ (by rw [hl]; simp)
    · have hlock := getattrRemote_locked hg
      obtain ⟨l, rfl⟩ := getattrRemote_spec hg
      obtain ⟨pl, hpl, _⟩ := Except.bind_ok.mp hg
      refine (visit_remote ho).mpr ⟨(pentryMdLock_ok hpl).1, ?_⟩
      have hl : l = (w.entryOr task.env path (task.env.rawType path)).usermd.isNone := by
        change l = false ↔ _ at hlock
        cases hu : (w.entryOr task.env path (task.env.rawType path)).usermd with
        | none =>
          rw [hu] at hlock
          simpa using hlock
        | some md =>
          rw [hu] at hlock
          simpa using hlock
      rw [hl]
    · intro hf
      rw [hf.2.2.1] at ho
      cases ho
  | loc hr hl ha ho hg =>
    have hlk := lookupOrPopulate_spec hi hl
    obtain rfl := hlk.entryOr ha
    refine hone hr hlk rfl ((visit_loc ho).mpr rfl) ?_ (by rw [hl]; simp)
    · intro hf
      rw [hf.2.2.1] at ho
      cases ho
  | unset hr hl ha ho hg =>
    rename_i a u pe pe' fill
    have hlk : Looked task.env _ w path a u := lookupOrPopulate_spec hi hl
    obtain rfl := hlk.entryOr ha
    have hp : (w.entryOr task.env path (task.env.rawType path)).path = path :=
      hi.entryOr_path task.env path _
    have hsome : lookupOrPopulate task.env w path (task.env.rawType path) ≠ none := by
      rw [hl]
      simp
    rcases getattrUnset_spec hg with ⟨hret, rfl⟩ | ⟨rfl, o, type, dict, _, _, rfl⟩
    · have hno : task.answered w.store path ≠ true := by
        intro hans
        obtain ⟨o, hst⟩ := (answered_iff hok).mp hans
        exact hret (getattrUnset_returns (hlk.store ▸ hst) hr hg)
      have hfill : fill = false := by
        cases fill with
        | false => rfl
        | true =>
          obtain ⟨o, hst⟩ := getattrUnset_done hr (.inr rfl) hg
          exact (hret (getattrUnset_returns hst hr hg)).elim
      refine hone hr hlk (by rw [hfill]; rfl) ?_ (fun hf => hno hf.2.2.2) hsome
      rw [visit_unset ho, hp, if_neg hno]
    · obtain ⟨o', hst⟩ := getattrUnset_done hr (.inl rfl) hg
      have hans : task.answered w.store path = true := (answered_iff hok).mpr ⟨o', hlk.store ▸ hst⟩
      have hfill := getattrUnset_fills hst hr hg
      have hf : w.Fills task path := ⟨hr, hlook.mp hsome, ho, hans⟩
      have hui := (hlk.inv.setEntry_keeps ha { w.entryOr task.env path (task.env.rawType path) with
        usermd := keptUsermd task.env dict, filetype := .reg, ondisk := .remote, mdLocked := false,
        atime := task.env.now } rfl rfl rfl (.inr ⟨ho, rfl⟩)).1
      have hself := World.setEntry_entry_self (u := u) hlk.hash
        { w.entryOr task.env path (task.env.rawType path) with
        usermd := keptUsermd task.env dict, filetype := .reg, ondisk := .remote, mdLocked := false,
        atime := task.env.now }
      have hne : ∀ key, key ≠ path →
          (u.setEntry a { w.entryOr task.env path (task.env.rawType path) with
          usermd := keptUsermd task.env dict, filetype := .reg, ondisk := .remote,
          mdLocked := false, atime := task.env.now }).entry key = w.entry key := by
        intro key hk
        rw [hlk.inv.setEntry_entry_of_ne hlk.hash hk, hlk.entry_of_ne hi hk]
      have hv : Visit task w.store (w.entryOr task.env path (task.env.rawType path))
          { w.entryOr task.env path (task.env.rawType path) with
          usermd := keptUsermd task.env dict, filetype := .reg, ondisk := .remote,
          mdLocked := false, atime := task.env.now } := by
        rw [visit_unset ho, if_pos (by rw [hp]; exact hans)]
        refine ⟨_, rfl, fun o₁ ho₁ => ?_⟩
        obtain ⟨o₂, dict₂, ho₂, hhead₂, hkept⟩ := getattrUnset_headers hr hg
        have hkept : keptUsermd task.env dict = keptUsermd task.env dict₂ := hkept
        rw [hp] at ho₁
        rw [hlk.store] at ho₂
        obtain rfl : o₂ = o₁ := Option.some.inj (ho₂.symm.trans ho₁)
        rw [hkept]
        exact keepsMeta_iff hhead₂
      have habs : ¬(path = rootPath ∨ w.entry path = none ∧ task.populates = false) := by
        intro hab
        rcases hab with he | ⟨hn, hpop⟩
        · exact hr he
        · rcases hf.2.1 with hs | hs
          · exact hs hn
          · rw [hpop] at hs
            cases hs
      rw [hfill, if_pos rfl, hashFillDirent_eq] at hti ⊢
      cases hd : parentDir path with
      | none =>
        rw [hd] at hti
        refine ⟨hti, hlk.store, fun _ _ => ⟨_, hself, hv⟩, fun hab => (habs hab).elim, ?_, ?_⟩
        · exact fun key hk _ => hne key hk
        · intro key hk _
          rw [hd] at hk
          cases hk
      | some dir =>
        rw [hd] at hti
        have hdir : dir ≠ path := fun he => parentDir_ne hr (he ▸ hd)
        refine ⟨hti, ?_, fun _ _ => ⟨_, ?_, hv⟩, fun hab => (habs hab).elim, ?_, ?_⟩
        · exact (World.onEntry_rest _ dir _).1.trans hlk.store
        · exact (hui.onEntry_entry_of_ne hdir.symm _).trans hself
        · intro key hk hno
          have hkd : key ≠ dir := by
            intro he
            rw [he] at hno
            exact hno ⟨hf, hd⟩
          exact (hui.onEntry_entry_of_ne hkd _).trans (hne key hk)
        · intro key hk _
          obtain rfl : dir = key := Option.some.inj (hd.symm.trans hk)
          dsimp only
          rw [World.onEntry_entry_self, hne dir hdir]

/-- A stat leaves the descriptors as they are. -/
theorem dfsGetattr_fds (hi : w.Inv) (h : dfsGetattr task.env w path = .ok (ret, st, t)) :
    ∀ a pe, w.heap a = some pe → ∃ qe, t.heap a = some qe ∧ qe.fd = pe.fd := by
  have hall : t.All fun a _ qe => ∀ pe, w.heap a = some pe → qe.fd = pe.fd := by
    refine dfsGetattr_all (P := fun a _ qe => ∀ pe, w.heap a = some pe → qe.fd = pe.fd)
      ⟨fun _ h => h, fun _ h => h, fun _ _ h => h⟩ hi ?_ ?_ ?_ ?_ h
    · intro a pe ha qe hq
      rw [Option.some.inj (ha.symm.trans hq)]
    · intro _ qe hq
      rw [hi.brk_free] at hq
      cases hq
    · exact fun _ _ _ _ _ _ hpe => hpe
    · exact fun _ _ _ _ hpe => hpe
  intro a pe ha
  obtain ⟨qe, hq, _⟩ := (dfsGetattr_inv hi h).2 a pe ha
  exact ⟨qe, hq, hall a qe hq pe ha⟩

end Visits

/-- The first hit behind the first element that passes, when none has passed before. -/
theorem find_dropWhile_first {α : Type} {p q : α → Bool} {l : List α} (h : ∀ x ∈ l, p x = false)
    (a : α) : (l.dropWhile fun x => !p x).find? q = none ∧
      ((l ++ [a]).dropWhile fun x => !p x).find? q =
        if p a = true ∧ q a = true then some a else none := by
  have hdrop : l.dropWhile (fun x => !p x) = [] := by
    rw [List.dropWhile_eq_nil_iff]
    intro x hx
    simp [h x hx]
  rw [List.dropWhile_append, hdrop]
  refine ⟨rfl, ?_⟩
  cases hp : p a with
  | false => simp [hp]
  | true => cases hq : q a <;> simp [hp, hq]

theorem find_dropWhile_later {α : Type} {p q : α → Bool} {l : List α}
    (h : ¬∀ x ∈ l, p x = false) (a : α) :
    ((l ++ [a]).dropWhile fun x => !p x).find? q =
      ((l.dropWhile fun x => !p x).find? q).or (if q a = true then some a else none) := by
  have hdrop : (l.dropWhile fun x => !p x).isEmpty = false := by
    cases hd : l.dropWhile fun x => !p x with
    | nil =>
      rw [List.dropWhile_eq_nil_iff] at hd
      exact (h fun x hx => by simpa using hd x hx).elim
    | cons x xs => rfl
  rw [List.dropWhile_append, hdrop, if_neg (by simp), List.find?_append]
  cases hq : q a <;> simp [hq]

section Runs

variable {s w t : World} {ts : List PoolTask} {task : PoolTask} {path key : Path} {pe qe : Entry}

theorem World.tasksOn_root : s.tasksOn ts rootPath = [] := if_pos rfl

theorem World.tasksOn_self (ts : List PoolTask) (hr : path ≠ rootPath) (hp : task.text s = path) :
    s.tasksOn (ts ++ [task]) path = s.tasksOn ts path ++ [task] := by
  simp [World.tasksOn, hr, hp]

theorem World.tasksOn_other (ts : List PoolTask) (h : task.text s = rootPath ∨ key ≠ task.text s) :
    s.tasksOn (ts ++ [task]) key = s.tasksOn ts key := by
  by_cases hk : key = rootPath
  · rw [hk, tasksOn_root, tasksOn_root]
  · have hne : ¬task.text s = key := by
      intro he
      rcases h with h | h
      · exact hk (he.symm.trans h)
      · exact h he.symm
    simp [World.tasksOn, hk, hne]

theorem World.firstFill_other (ts : List PoolTask)
    (h : task.text s = rootPath ∨ key ≠ task.text s) :
    s.firstFill (ts ++ [task]) key = s.firstFill ts key := by
  unfold World.firstFill
  rw [tasksOn_other ts h]

theorem World.firstFill_set (ts : List PoolTask) (he : s.entry key = some pe)
    (ho : pe.ondisk ≠ .unset) :
    s.firstFill ts key = none := by
  rw [World.firstFill, he]
  exact if_neg ho

/-- What the tasks so far have made of an entry. -/
structure Touched (s : World) (ts : List PoolTask) (key : Path) (pe qe : Entry) : Prop where
  atime : qe.atime = ((s.tasksOn ts key).getLast?.map (·.env.now)).getD pe.atime
  ondisk : qe.ondisk = if (s.firstFill ts key).isSome then .remote else pe.ondisk
  usermd : s.firstFill ts key = none → qe.usermd = pe.usermd
  filled : ∀ task, s.firstFill ts key = some task → ∀ o, s.store.lookup key = some o →
    (qe.usermd = some o.userMeta ↔ task.KeepsMeta o)
  same : s.firstFill ts key = none →
    (pe.ondisk = .remote → s.tasksOn ts key ≠ [] → pe.usermd.isSome) →
    qe = { pe with atime := qe.atime, dirent := qe.dirent }
  locked : pe.ondisk = .remote → pe.usermd = none → s.tasksOn ts key ≠ [] →
    pe.mdLocked = false ∧ qe.mdLocked = true
  dirent : (∃ path, parentDir path = some key ∧ s.firstFill ts path ≠ none) ∧
      pe.dirent.length < qe.dirent.length ∨
    (∀ path, parentDir path = some key → s.firstFill ts path = none) ∧ qe.dirent = pe.dirent

/-- The state after some of the tasks. -/
structure Tracks (s : World) (ts : List PoolTask) (w : World) : Prop where
  inv : w.Inv
  store : w.store = s.store
  fds : ∀ a pe, s.heap a = some pe → ∃ qe, w.heap a = some qe ∧ qe.fd = pe.fd
  old : ∀ key pe, s.entry key = some pe → ∃ qe, w.entry key = some qe ∧ Touched s ts key pe qe
  absent : ∀ key, s.entry key = none →
    (w.entry key = none ↔ ∀ task ∈ s.tasksOn ts key, task.populates = false)
  new : ∀ key, s.entry key = none → ∀ qe, w.entry key = some qe →
    (qe.ondisk = .unset ↔ s.firstFill ts key = none)

theorem Tracks.start (hi : s.Inv) : Tracks s [] s := by
  have hfill : ∀ key, s.firstFill [] key = none := by
    intro key
    unfold World.firstFill World.tasksOn
    split
    · split_ifs <;> rfl
    · split_ifs <;> rfl
  have hon : ∀ key, s.tasksOn [] key = [] := by
    intro key
    unfold World.tasksOn
    split_ifs <;> rfl
  refine ⟨hi, rfl, fun a pe ha => ⟨pe, ha, rfl⟩, fun key pe he => ⟨pe, he, ?_⟩, ?_, ?_⟩
  · refine ⟨?_, ?_, fun _ => rfl, ?_, fun _ _ => rfl, ?_, .inr ⟨fun _ _ => hfill _, rfl⟩⟩
    · rw [hon]
      rfl
    · rw [hfill]
      rfl
    · intro task htask
      rw [hfill] at htask
      cases htask
    · intro _ _ hne
      exact (hne (hon key)).elim
  · intro key hn
    rw [hon]
    simp [hn]
  · intro key hn qe hq
    rw [hn] at hq
    cases hq

/-- A stat that fills the entry in is the first one, and any other leaves the first one be. -/
theorem Tracks.firstFill (h : Tracks s ts w) (hp : task.text s = path) (hr : path ≠ rootPath) :
    (w.Fills task path → s.firstFill ts path = none ∧
      s.firstFill (ts ++ [task]) path = some task) ∧
    (¬w.Fills task path → s.firstFill (ts ++ [task]) path = s.firstFill ts path) := by
  have hon := World.tasksOn_self ts hr hp
  unfold World.Fills World.entryOr
  rw [h.store]
  cases he : s.entry path with
  | some pe =>
    obtain ⟨qe, hq, ht⟩ := h.old path pe he
    have hcur := ht.ondisk
    have hdef : ∀ l, s.firstFill l path = if pe.ondisk = .unset then
        (s.tasksOn l path).find? (·.answered s.store path) else none := by
      intro l
      rw [World.firstFill, he]
    rw [hq, Option.getD_some]
    by_cases hu : pe.ondisk = .unset
    · rw [hdef, if_pos hu] at hcur
      rw [hdef, hdef, if_pos hu, if_pos hu, hon, List.find?_append]
      cases hx : (s.tasksOn ts path).find? (·.answered s.store path) with
      | none =>
        rw [hx] at hcur
        have hunset : qe.ondisk = .unset := hcur.trans hu
        cases ha : task.answered s.store path with
        | false => simp [ha]
        | true => simp [ha, hr, hunset]
      | some x =>
        rw [hx] at hcur
        have hrem : qe.ondisk ≠ .unset := by
          rw [hcur]
          simp
        simp [hrem]
    · rw [hdef, if_neg hu] at hcur
      have hrem : qe.ondisk ≠ .unset := fun ho => hu (hcur.symm.trans ho)
      rw [hdef, hdef, if_neg hu, if_neg hu]
      simp [hrem]
  | none =>
    have hdef : ∀ l, s.firstFill l path =
        ((s.tasksOn l path).dropWhile fun task => !task.populates).find?
          (·.answered s.store path) := by
      intro l
      rw [World.firstFill, he]
    rw [hdef, hdef, hon]
    by_cases hall : ∀ x ∈ s.tasksOn ts path, x.populates = false
    · have hq := (h.absent path he).mpr hall
      obtain ⟨h1, h2⟩ := find_dropWhile_first (q := (·.answered s.store path)) hall task
      rw [h1, h2, hq, Option.getD_none]
      cases hpop : task.populates with
      | false => simp
      | true => simp [hr, pentryNew]
    · have hne : w.entry path ≠ none := fun hn => hall ((h.absent path he).mp hn)
      obtain ⟨qe, hq⟩ := Option.ne_none_iff_exists'.mp hne
      have hcur := h.new path he qe hq
      rw [hdef] at hcur
      rw [find_dropWhile_later hall, hq, Option.getD_some]
      cases hx : ((s.tasksOn ts path).dropWhile fun task => !task.populates).find?
          (·.answered s.store path) with
      | none =>
        have hunset := hcur.mpr hx
        simp [hr, hunset]
      | some x =>
        have hrem : qe.ondisk ≠ .unset := by
          intro ho
          rw [hcur.mp ho] at hx
          cases hx
        simp [hrem]

/-- The list of an entry across a stat of some path. -/
theorem Tracks.dirent (h : Tracks s ts w) (hp : task.text s = path) (hr : path ≠ rootPath)
    (hq : (∃ p, parentDir p = some key ∧ s.firstFill ts p ≠ none) ∧
        pe.dirent.length < qe.dirent.length ∨
      (∀ p, parentDir p = some key → s.firstFill ts p = none) ∧ qe.dirent = pe.dirent) {re : Entry}
    (hre : w.Fills task path ∧ parentDir path = some key ∧ re.dirent = path :: qe.dirent ∨
      ¬(w.Fills task path ∧ parentDir path = some key) ∧ re.dirent = qe.dirent) :
    (∃ p, parentDir p = some key ∧ s.firstFill (ts ++ [task]) p ≠ none) ∧
        pe.dirent.length < re.dirent.length ∨
      (∀ p, parentDir p = some key → s.firstFill (ts ++ [task]) p = none) ∧
        re.dirent = pe.dirent := by
  obtain ⟨hfill, hno⟩ := h.firstFill hp hr
  rcases hre with ⟨hf, hd, hre⟩ | ⟨hnf, hre⟩
  · refine .inl ⟨⟨path, hd, by rw [(hfill hf).2]; simp⟩, ?_⟩
    have hle : pe.dirent.length ≤ qe.dirent.length := by
      rcases hq with ⟨_, hlt⟩ | ⟨_, he⟩
      · exact hlt.le
      · rw [he]
    rw [hre, List.length_cons]
    omega
  · have hsame : ∀ p, parentDir p = some key →
        s.firstFill (ts ++ [task]) p = s.firstFill ts p := by
      intro p hd
      by_cases he : p = path
      · rw [he]
        apply hno
        intro hf
        exact hnf ⟨hf, he ▸ hd⟩
      · exact World.firstFill_other ts (.inr (by rw [hp]; exact he))
    rw [hre]
    rcases hq with ⟨⟨p, hd, hx⟩, hlt⟩ | ⟨hall, he⟩
    · exact .inl ⟨⟨p, hd, by rw [hsame p hd]; exact hx⟩, hlt⟩
    · exact .inr ⟨fun p hd => (hsame p hd).trans (hall p hd), he⟩

/-- An entry of another path. -/
theorem Touched.other (h : Tracks s ts w) (hp : task.text s = path) (hr : path ≠ rootPath)
    (ht : Touched s ts key pe qe) (hne : key ≠ path) {re : Entry} {dirent : List Path}
    (he : re = { qe with dirent := dirent })
    (hre : w.Fills task path ∧ parentDir path = some key ∧ re.dirent = path :: qe.dirent ∨
      ¬(w.Fills task path ∧ parentDir path = some key) ∧ re.dirent = qe.dirent) :
    Touched s (ts ++ [task]) key pe re := by
  have hother : task.text s = rootPath ∨ key ≠ task.text s := .inr (by rw [hp]; exact hne)
  have hon := World.tasksOn_other ts hother
  have hfill := World.firstFill_other ts hother
  have hdir := h.dirent hp hr ht.dirent hre
  obtain ⟨h1, h2, h3, h4, h5, h6, _⟩ := ht
  rw [he] at hdir ⊢
  refine ⟨?_, ?_, ?_, ?_, ?_, ?_, hdir⟩
  · rw [hon]
    exact h1
  · rw [hfill]
    exact h2
  · rw [hfill]
    exact h3
  · rw [hfill]
    exact h4
  · rw [hfill, hon]
    intro hn hl
    have hsame := h5 hn hl
    rw [hsame]
  · rw [hon]
    exact h6

/-- The entry of the path itself. -/
theorem Touched.self (h : Tracks s ts w) (hp : task.text s = path) (hr : path ≠ rootPath)
    (hs : s.entry path = some pe) (hqp : qe.path = path) (hw : w.entry path = some qe)
    (ht : Touched s ts path pe qe) {re : Entry}
    (hv : Visit task w.store qe re) : Touched s (ts ++ [task]) path pe re := by
  have hon := World.tasksOn_self ts hr hp
  obtain ⟨hfill, hno⟩ := h.firstFill hp hr
  have hor : w.entryOr task.env path (task.env.rawType path) = qe := by
    rw [World.entryOr, hw, Option.getD_some]
  have hlast : (((s.tasksOn ts path ++ [task]).getLast?).map (·.env.now)).getD pe.atime =
      task.env.now := by simp
  have hdir : ∀ {dirent}, dirent = qe.dirent → re.dirent = dirent →
      (∃ p, parentDir p = some path ∧ s.firstFill (ts ++ [task]) p ≠ none) ∧
        pe.dirent.length < re.dirent.length ∨
      (∀ p, parentDir p = some path → s.firstFill (ts ++ [task]) p = none) ∧
        re.dirent = pe.dirent := by
    intro dirent hd hre
    apply h.dirent hp hr ht.dirent (.inr ⟨?_, hre.trans hd⟩)
    exact fun hf => parentDir_ne hr hf.2
  cases ho : qe.ondisk with
  | remote =>
    obtain ⟨hfree, hre⟩ := (visit_remote ho).mp hv
    have hnf : ¬w.Fills task path := by
      intro hf
      have hu := hf.2.2.1
      rw [hor, ho] at hu
      cases hu
    have hd := hdir rfl (by rw [hre])
    refine ⟨?_, ?_, ?_, ?_, ?_, ?_, hd⟩
    · rw [hon, hlast, hre]
    · rw [hno hnf, hre]
      exact ht.ondisk
    · rw [hno hnf, hre]
      exact ht.usermd
    · rw [hno hnf, hre]
      exact ht.filled
    · rw [hno hnf, hon]
      intro hn hl
      have hrem : pe.ondisk = .remote := by
        have hx := ht.ondisk
        rw [hn, ho] at hx
        exact hx.symm
      have husermd := hl hrem (by simp)
      have hsame := ht.same hn fun _ _ => husermd
      have hpe : pe.mdLocked = false := by
        rw [hsame] at hfree
        exact hfree
      have hlock : qe.usermd.isNone = pe.mdLocked := by
        rw [ht.usermd hn, hpe]
        simpa using husermd
      rw [hre]
      dsimp only
      rw [hlock, hsame]
    · rw [hon]
      intro hrem hnone _
      have hn := World.firstFill_set ts hs (by rw [hrem]; decide)
      by_cases hempty : s.tasksOn ts path = []
      · have hsame := ht.same hn fun _ hne => (hne hempty).elim
        have hpe : pe.mdLocked = false := by
          rw [hsame] at hfree
          exact hfree
        refine ⟨hpe, ?_⟩
        rw [hre]
        dsimp only
        rw [ht.usermd hn, hnone]
        rfl
      · have hlocked := (ht.locked hrem hnone hempty).2
        rw [hfree] at hlocked
        cases hlocked
  | loc =>
    have hre := (visit_loc ho).mp hv
    have hnf : ¬w.Fills task path := by
      intro hf
      have hu := hf.2.2.1
      rw [hor, ho] at hu
      cases hu
    have hn : s.firstFill ts path = none := by
      cases hx : s.firstFill ts path with
      | none => rfl
      | some x =>
        have hc := ht.ondisk
        rw [hx, ho] at hc
        cases hc
    have hloc : pe.ondisk = .loc := by
      have hx := ht.ondisk
      rw [hn, ho] at hx
      exact hx.symm
    have hd := hdir rfl (by rw [hre])
    refine ⟨?_, ?_, ?_, ?_, ?_, ?_, hd⟩
    · rw [hon, hlast, hre]
    · rw [hno hnf, hre]
      exact ht.ondisk
    · rw [hno hnf, hre]
      exact ht.usermd
    · rw [hno hnf, hre]
      exact ht.filled
    · rw [hno hnf]
      intro _ _
      have hsame := ht.same hn fun hrem _ => absurd (hloc.symm.trans hrem) (by decide)
      rw [hre]
      dsimp only
      rw [hsame]
    · intro hrem
      exact absurd (hloc.symm.trans hrem) (by decide)
  | unset =>
    have hn : s.firstFill ts path = none := by
      cases hx : s.firstFill ts path with
      | none => rfl
      | some x =>
        have hc := ht.ondisk
        rw [hx, ho] at hc
        cases hc
    have hunset : pe.ondisk = .unset := by
      have hx := ht.ondisk
      rw [hn, ho] at hx
      exact hx.symm
    have hvis := (visit_unset ho).mp hv
    by_cases hans : task.answered w.store path = true
    · rw [if_pos (by rw [hqp]; exact hans)] at hvis
      obtain ⟨u, hre, hu⟩ := hvis
      rw [hqp] at hu
      have hf : w.Fills task path := by
        refine ⟨hr, .inl (by rw [hw]; simp), ?_, hans⟩
        rw [hor, ho]
      have hd := hdir rfl (by rw [hre])
      refine ⟨?_, ?_, ?_, ?_, ?_, ?_, hd⟩
      · rw [hon, hlast, hre]
      · rw [(hfill hf).2, hre]
        rfl
      · rw [(hfill hf).2]
        intro hx
        cases hx
      · rw [(hfill hf).2, hre]
        intro k hk o hobj
        rw [← Option.some.inj hk]
        rw [← h.store] at hobj
        exact hu o hobj
      · rw [(hfill hf).2]
        intro hx
        cases hx
      · intro hrem
        exact absurd (hunset.symm.trans hrem) (by decide)
    · rw [if_neg (by rw [hqp]; exact hans)] at hvis
      have hnf : ¬w.Fills task path := fun hf => hans hf.2.2.2
      have hd := hdir rfl (by rw [hvis])
      refine ⟨?_, ?_, ?_, ?_, ?_, ?_, hd⟩
      · rw [hon, hlast, hvis]
      · rw [hno hnf, hvis]
        exact ht.ondisk
      · rw [hno hnf, hvis]
        exact ht.usermd
      · rw [hno hnf, hvis]
        exact ht.filled
      · rw [hno hnf]
        intro _ _
        have hsame := ht.same hn fun hrem _ => absurd (hunset.symm.trans hrem) (by decide)
        rw [hvis]
        dsimp only
        rw [hsame]
      · intro hrem
        exact absurd (hunset.symm.trans hrem) (by decide)

/-- A task that looks up the root has done nothing. -/
theorem Touched.idle (hr : task.text s = rootPath) (ht : Touched s ts key pe qe) :
    Touched s (ts ++ [task]) key pe qe := by
  have hfill : ∀ p, s.firstFill (ts ++ [task]) p = s.firstFill ts p :=
    fun p => World.firstFill_other ts (.inl hr)
  have hother : task.text s = rootPath ∨ key ≠ task.text s := .inl hr
  have hon := World.tasksOn_other ts hother
  obtain ⟨h1, h2, h3, h4, h5, h6, h7⟩ := ht
  refine ⟨?_, ?_, ?_, ?_, ?_, ?_, ?_⟩
  · rw [hon]
    exact h1
  · rw [hfill]
    exact h2
  · rw [hfill]
    exact h3
  · rw [hfill]
    exact h4
  · rw [hfill, hon]
    exact h5
  · rw [hon]
    exact h6
  · simp only [hfill]
    exact h7

theorem PoolTask.run_visited (h : Tracks s ts w) (hl : ∃ pe, s.heap task.entry = some pe)
    (hok : task.env.RemoteOk) (hrun : task.run w = .ok t) : Visited w task (task.text s) t ∧
      ∀ a pe, w.heap a = some pe → ∃ qe, t.heap a = some qe ∧ qe.fd = pe.fd := by
  obtain ⟨pe, hpe⟩ := hl
  obtain ⟨qe, hq, hfd⟩ := h.fds task.entry pe hpe
  obtain ⟨re, hre, hget⟩ := Except.bind_ok.mp hrun
  obtain rfl : qe = re := Option.some.inj (hq.symm.trans (World.deref_ok.mp hre))
  obtain ⟨⟨ret, st, u⟩, hst, rfl⟩ := Except.map_eq_ok.mp hget
  have htext : task.text s = entryText task.behind qe := by
    rw [PoolTask.text, hpe, Option.map_some, Option.getD_some, entryText, entryText, hfd]
  rw [htext]
  exact ⟨dfsGetattr_visited h.inv hok hst, dfsGetattr_fds h.inv hst⟩

/-- Where the new entry of a path stands after a stat of it. -/
theorem Tracks.new_self (h : Tracks s ts w) (hp : task.text s = path) (hr : path ≠ rootPath)
    (hs : s.entry path = none) (hsome : w.entry path ≠ none ∨ task.populates = true) {re : Entry}
    (hv : Visit task w.store (w.entryOr task.env path (task.env.rawType path)) re) :
    re.ondisk = .unset ↔ s.firstFill (ts ++ [task]) path = none := by
  obtain ⟨hfill, hno⟩ := h.firstFill hp hr
  have hold : (w.entryOr task.env path (task.env.rawType path)).ondisk = .unset ↔
      s.firstFill ts path = none := by
    cases hw : w.entry path with
    | some qe =>
      rw [World.entryOr, hw, Option.getD_some]
      exact h.new path hs qe hw
    | none =>
      have hall := (h.absent path hs).mp hw
      rw [World.entryOr, hw, Option.getD_none, World.firstFill, hs]
      exact iff_of_true rfl
        (find_dropWhile_first (q := (·.answered s.store path)) hall task).1
  cases ho : (w.entryOr task.env path (task.env.rawType path)).ondisk with
  | remote =>
    have hnf : ¬w.Fills task path := fun hf => by
      rw [hf.2.2.1] at ho
      cases ho
    rw [hno hnf, ← hold, ((visit_remote ho).mp hv).2]
  | loc =>
    have hnf : ¬w.Fills task path := fun hf => by
      rw [hf.2.2.1] at ho
      cases ho
    rw [hno hnf, ← hold, (visit_loc ho).mp hv]
  | unset =>
    have hpath : (w.entryOr task.env path (task.env.rawType path)).path = path :=
      h.inv.entryOr_path task.env path _
    have hvis := (visit_unset ho).mp hv
    rw [hpath] at hvis
    by_cases hans : task.answered w.store path = true
    · rw [if_pos hans] at hvis
      obtain ⟨u, hre, _⟩ := hvis
      rw [(hfill ⟨hr, hsome, ho, hans⟩).2, hre]
      simp
    · rw [if_neg hans] at hvis
      rw [hno fun hf => hans hf.2.2.2, ← hold, hvis, ho]

/-- One task more. -/
theorem Tracks.step (h : Tracks s ts w) (hl : ∃ pe, s.heap task.entry = some pe)
    (hok : task.env.RemoteOk) (hrun : task.run w = .ok t) : Tracks s (ts ++ [task]) t := by
  obtain ⟨hv, hf⟩ := PoolTask.run_visited h hl hok hrun
  have hfds : ∀ a pe, s.heap a = some pe → ∃ qe, t.heap a = some qe ∧ qe.fd = pe.fd := by
    intro a pe ha
    obtain ⟨qe, hq, h1⟩ := h.fds a pe ha
    obtain ⟨re, hre, h2⟩ := hf a qe hq
    exact ⟨re, hre, h2.trans h1⟩
  by_cases hr : task.text s = rootPath
  · have hsame : ∀ key, t.entry key = w.entry key := by
      intro key
      by_cases hk : key = task.text s
      · rw [hk]
        exact hv.absent (.inl hr)
      · exact hv.other key hk fun hfill => hfill.1.1 hr
    refine ⟨hv.inv, hv.store.trans h.store, hfds, ?_, ?_, ?_⟩
    · intro key pe he
      obtain ⟨qe, hq, ht⟩ := h.old key pe he
      exact ⟨qe, (hsame key).trans hq, ht.idle hr⟩
    · intro key hn
      rw [hsame, World.tasksOn_other _ (.inl hr)]
      exact h.absent key hn
    · intro key hn qe hq
      rw [hsame] at hq
      rw [World.firstFill_other _ (.inl hr)]
      exact h.new key hn qe hq
  · -- what happens to the entries of other paths
    have hother : ∀ key, key ≠ task.text s →
        t.entry key = none ∧ w.entry key = none ∨ ∃ qe re dirent, w.entry key = some qe ∧
          t.entry key = some re ∧ re = { qe with dirent := dirent } ∧
          (w.Fills task (task.text s) ∧ parentDir (task.text s) = some key ∧
              re.dirent = task.text s :: qe.dirent ∨
            ¬(w.Fills task (task.text s) ∧ parentDir (task.text s) = some key) ∧
              re.dirent = qe.dirent) := by
      intro key hk
      by_cases hd : w.Fills task (task.text s) ∧ parentDir (task.text s) = some key
      · have ht := hv.parent key hd.2 hd.1
        cases hw : w.entry key with
        | none => exact .inl ⟨by rw [ht, hw]; rfl, rfl⟩
        | some qe =>
          rw [hw] at ht
          exact .inr ⟨qe, _, _, rfl, ht, rfl, .inl ⟨hd.1, hd.2, rfl⟩⟩
      · have ht := hv.other key hk hd
        cases hw : w.entry key with
        | none => exact .inl ⟨ht.trans hw, rfl⟩
        | some qe => exact .inr ⟨qe, qe, qe.dirent, rfl, ht.trans hw, rfl, .inr ⟨hd, rfl⟩⟩
    refine ⟨hv.inv, hv.store.trans h.store, hfds, ?_, ?_, ?_⟩
    · intro key pe he
      obtain ⟨qe, hq, ht⟩ := h.old key pe he
      by_cases hk : key = task.text s
      · subst hk
        obtain ⟨re, hre, hvis⟩ := hv.self hr (.inl (by rw [hq]; simp))
        rw [show w.entryOr task.env (task.text s) (task.env.rawType (task.text s)) = qe by
          rw [World.entryOr, hq, Option.getD_some]] at hvis
        have hpath : qe.path = task.text s := by
          have hp := h.inv.entryOr_path task.env (task.text s) .reg
          rwa [World.entryOr, hq, Option.getD_some] at hp
        exact ⟨re, hre, ht.self h rfl hr he hpath hq hvis⟩
      · rcases hother key hk with ⟨_, hn⟩ | ⟨qe', re, dirent, hq', hre, hupd, hdir⟩
        · rw [hq] at hn
          cases hn
        · obtain rfl := Option.some.inj (hq.symm.trans hq')
          exact ⟨re, hre, ht.other h rfl hr hk hupd hdir⟩
    · intro key hn
      by_cases hk : key = task.text s
      · subst hk
        rw [World.tasksOn_self _ hr rfl]
        have hall : (∀ x ∈ s.tasksOn ts (task.text s) ++ [task], x.populates = false) ↔
            w.entry (task.text s) = none ∧ task.populates = false := by
          rw [h.absent _ hn]
          simp [or_imp, forall_and]
        rw [hall]
        constructor
        · intro ht
          by_contra hno
          have hsome : w.entry (task.text s) ≠ none ∨ task.populates = true := by
            by_contra hc
            simp only [not_or, not_not, Bool.not_eq_true] at hc
            exact hno hc
          obtain ⟨re, hre, _⟩ := hv.self hr hsome
          rw [ht] at hre
          cases hre
        · intro hab
          rw [hv.absent (.inr hab)]
          exact hab.1
      · rw [World.tasksOn_other _ (.inr hk), ← h.absent key hn]
        rcases hother key hk with ⟨ht, hw⟩ | ⟨qe, re, _, hw, ht, _, _⟩
        · rw [ht, hw]
        · rw [ht, hw]
          simp
    · intro key hn re hre
      by_cases hk : key = task.text s
      · subst hk
        have hsome : w.entry (task.text s) ≠ none ∨ task.populates = true := by
          by_contra hc
          simp only [not_or, not_not, Bool.not_eq_true] at hc
          rw [hv.absent (.inr hc), hc.1] at hre
          cases hre
        obtain ⟨re', hre', hvis⟩ := hv.self hr hsome
        obtain rfl := Option.some.inj (hre.symm.trans hre')
        exact h.new_self rfl hr hn hsome hvis
      · rw [World.firstFill_other _ (.inr hk)]
        rcases hother key hk with ⟨ht, _⟩ | ⟨qe, re', dirent, hw, ht, hupd, _⟩
        · rw [ht] at hre
          cases hre
        · obtain rfl := Option.some.inj (ht.symm.trans hre)
          rw [hupd]
          exact h.new key hn qe hw

theorem Tracks.run (h : Tracks s ts w) {us : List PoolTask}
    (hl : ∀ task ∈ us, ∃ pe, s.heap task.entry = some pe) (hok : ∀ task ∈ us, task.env.RemoteOk)
    (hrun : us.foldlM PoolTask.run w = .ok t) : Tracks s (ts ++ us) t := by
  induction us generalizing ts w with
  | nil =>
    rw [List.append_nil]
    rwa [← Except.pure_ok.mp hrun]
  | cons task us ih =>
    rw [List.foldlM_cons] at hrun
    obtain ⟨u, hu, hrun⟩ := Except.bind_ok.mp hrun
    obtain ⟨hl1, hl2⟩ := List.forall_mem_cons.mp hl
    obtain ⟨hok1, hok2⟩ := List.forall_mem_cons.mp hok
    have hnext := ih (h.step hl1 hok1 hu) hl2 hok2 hrun
    rwa [List.append_assoc, List.singleton_append] at hnext

theorem World.firstFill_nil (h : s.tasksOn ts key = []) : s.firstFill ts key = none := by
  unfold World.firstFill
  rw [h]
  split
  · split_ifs <;> rfl
  · rfl

theorem World.tasksOn_subset (h : task ∈ s.tasksOn ts key) : task ∈ ts := by
  unfold World.tasksOn at h
  split_ifs at h
  · cases h
  · exact (List.mem_filter.mp h).1

/-- What is left of an entry is its object's metadata and the time of a task. -/
theorem Touched.due_iff (ht : Touched s ts key pe qe) {o : Obj} (ho : s.store.lookup key = some o) :
    (qe.usermd = some o.userMeta ∧ ∃ task ∈ ts, qe.atime = task.env.now) ↔
      if s.tasksOn ts key = [] then
        pe.usermd = some o.userMeta ∧ ∃ task ∈ ts, pe.atime = task.env.now
      else
        match s.firstFill ts key with
        | none => pe.usermd = some o.userMeta
        | some task => task.KeepsMeta o := by
  by_cases hon : s.tasksOn ts key = []
  · have hatime := ht.atime
    rw [hon] at hatime
    rw [if_pos hon, ht.usermd (World.firstFill_nil hon), show qe.atime = pe.atime from hatime]
  · rw [if_neg hon]
    have hlast := List.getLast?_eq_some_getLast hon
    have hatime := ht.atime
    rw [hlast] at hatime
    have htime : ∃ task ∈ ts, qe.atime = task.env.now :=
      ⟨_, World.tasksOn_subset (List.getLast_mem hon), hatime⟩
    rw [and_iff_left htime]
    cases hf : s.firstFill ts key with
    | none =>
      dsimp only
      rw [ht.usermd hf]
    | some task => exact ht.filled task hf o ho

/-- What is left of an entry is what it was. -/
theorem Touched.unchanged_iff (he : s.entry key = some pe) (ht : Touched s ts key pe qe) :
    qe = pe ↔
      (∀ task, (s.tasksOn ts key).getLast? = some task → task.env.now = pe.atime ∧
        s.firstFill ts key = none ∧ (pe.ondisk = .remote → pe.usermd.isSome)) ∧
      ∀ path, parentDir path = some key → s.firstFill ts path = none := by
  constructor
  · intro hq
    subst hq
    constructor
    · intro task hlast
      have hne : s.tasksOn ts key ≠ [] := by
        intro hon
        rw [hon] at hlast
        cases hlast
      have hatime := ht.atime
      rw [hlast] at hatime
      refine ⟨hatime.symm, ?_, fun hrem => ?_⟩
      · cases hf : s.firstFill ts key with
        | none => rfl
        | some k =>
          have hdisk := ht.ondisk
          rw [hf] at hdisk
          rw [World.firstFill_set _ he (by rw [hdisk]; simp)] at hf
          cases hf
      · by_contra hno
        rw [Option.not_isSome_iff_eq_none] at hno
        obtain ⟨h1, h2⟩ := ht.locked hrem hno hne
        rw [h1] at h2
        cases h2
    · rcases ht.dirent with ⟨_, hlt⟩ | ⟨hall, _⟩
      · omega
      · exact hall
  · intro ⟨hlast, hdirs⟩
    have hdirent : qe.dirent = pe.dirent := by
      rcases ht.dirent with ⟨⟨path, hd, hx⟩, _⟩ | ⟨_, hd⟩
      · exact (hx (hdirs path hd)).elim
      · exact hd
    have hatime := ht.atime
    by_cases hon : s.tasksOn ts key = []
    · have hsame := ht.same (World.firstFill_nil hon) fun _ hne => (hne hon).elim
      rw [hon] at hatime
      rw [hsame, hdirent, show qe.atime = pe.atime from hatime]
    · have hl := List.getLast?_eq_some_getLast hon
      obtain ⟨h1, h2, h3⟩ := hlast _ hl
      have hsame := ht.same h2 fun hrem _ => h3 hrem
      rw [hl] at hatime
      rw [hsame, hdirent, show qe.atime = pe.atime from hatime.trans h1]

end Runs

/-- An entry that was pushed is one of the table. -/
theorem Pass.live {s : World} (pass : Pass s) :
    ∀ task ∈ pass.tasks, ∃ pe, s.heap task.entry = some pe := by
  intro task htask
  have hmem := pass.perm.subset (List.mem_map_of_mem htask)
  obtain ⟨key, _, ha⟩ := List.mem_filterMap.mp hmem
  obtain ⟨_, hpush⟩ := Option.filter_eq_some_iff.mp ha
  cases hpe : s.heap task.entry with
  | some pe => exact ⟨pe, rfl⟩
  | none =>
    rw [hpe] at hpush
    cases hpush

/-- A pass refreshes the entries that are due, and no others, when the bytes of the entries pushed
happen to spell their paths. -/
theorem refresh_reaches_iff {s t : World} (pass : Pass s) (hi : s.Inv)
    (h : pass.tasks.foldlM PoolTask.run s = .ok t) : pass.Refreshes t ↔ pass.Spells := by
  have hall := (Tracks.start hi).run pass.live pass.remote h
  rw [List.nil_append] at hall
  constructor
  · intro ⟨hdue, hothers⟩
    refine ⟨fun key pe o he hd ho => ?_, fun key pe he hd hl => ?_⟩
    · obtain ⟨qe, hq, ht⟩ := hall.old key pe he
      obtain ⟨re, hre, hgot⟩ := hdue key pe o he hd ho
      obtain rfl := Option.some.inj (hq.symm.trans hre)
      exact (ht.due_iff ho).mp hgot
    · obtain ⟨qe, hq, ht⟩ := hall.old key pe he
      have hsame := Option.some.inj (hq.symm.trans (hothers key pe he hd hl))
      exact (ht.unchanged_iff he).mp hsame
  · intro ⟨hdue, hothers⟩
    refine ⟨fun key pe o he hd ho => ?_, fun key pe he hd hl => ?_⟩
    · obtain ⟨qe, hq, ht⟩ := hall.old key pe he
      exact ⟨qe, hq, (ht.due_iff ho).mpr (hdue key pe o he hd ho)⟩
    · obtain ⟨qe, hq, ht⟩ := hall.old key pe he
      rw [hq, (ht.unchanged_iff he).mpr (hothers key pe he hd hl)]

/-- Entries of two minutes are refreshed. -/
def Sample.cached : Settings :=
  { confCtorDefault ⟨fun _ => none, fun _ => none, fun _ => true, [], fun _ => none⟩ none with
    scLoopDelay := 60, scAgeThreshold := 120 }

/-- Two files have been looked at, `/g` ten seconds before the pass. -/
def Sample.looked : World :=
  let s := (Sample.daemon [(['/', 'f'], Sample.file [1]), (['/', 'g'], Sample.file [2])]).world
  let s := s.insertEntry ['/', 'f'] (pentryNew Env.quiet ['/', 'f'] .reg)
  s.insertEntry ['/', 'g'] { pentryNew Env.quiet ['/', 'g'] .reg with atime := 990 }

/-- `/f` has been downloaded to descriptor 26159, whose four bytes read as its path. -/
def Sample.spelled : World :=
  { Sample.looked.setEntry 0 { pentryNew Env.quiet ['/', 'f'] .reg with
      usermd := some Dict.empty, ondisk := .loc, fd := some 26159 } with
    fs :=
      { files := fun _ => none
        inodes := fun _ => ⟨[1], 0o644, 0, 0⟩
        fds := AList.singleton 26159 ⟨0, .rdwr, 0⟩
        nextInode := 1
        umask := 0o022 } }

theorem Sample.spelled_inv : Sample.spelled.Inv := by
  have hi : (Sample.daemon [(['/', 'f'], Sample.file [1]),
      (['/', 'g'], Sample.file [2])]).world.Inv := Daemon.init_inv Sample.fs_wf
  have hf := @World.Inv.insertEntry _ hi ['/', 'f'] (pentryNew Env.quiet ['/', 'f'] .reg)
    rfl rfl rfl (by decide)
  have hg := @World.Inv.insertEntry _ hf ['/', 'g']
    { pentryNew Env.quiet ['/', 'g'] .reg with atime := 990 } rfl rfl rfl (by decide)
  refine hg.update (a := 0) rfl ⟨rfl, ?_, ?_, .inr ?_⟩ (by decide)
  · refine ⟨?_, ?_, ?_⟩
    · intro n i hn
      cases hn
    · intro fd f hl
      by_cases hk : fd = 26159
      · subst hk
        obtain rfl := Option.some.inj hl
        exact Nat.zero_lt_one
      · have hmem := AList.lookup_isSome.mp (Option.isSome_of_eq_some hl)
        exact (hk (List.mem_singleton.mp (AList.mem_keys.mp hmem))).elim
    · intro n m i hn _
      cases hn
  · intro fd f hl _
    cases hl
  · intro fd hfd
    obtain rfl := Option.some.inj hfd
    exact ⟨rfl, _, rfl, rfl, .inr rfl⟩

def Sample.spelledPass : Pass Sample.spelled where
  conf := Sample.cached
  entrySize := 352
  now := fun _ => 1000
  keys := [['/', 'f'], ['/', 'g']]
  nodup := by decide
  mem_keys := by
    intro key
    by_cases hf : key = ['/', 'f']
    · simp [hf, Sample.spelled, Sample.looked, World.insertEntry]
    · by_cases hg : key = ['/', 'g']
      · simp [hg, Sample.spelled, Sample.looked, World.insertEntry]
      · simp [hf, hg, Sample.spelled, Sample.looked, World.insertEntry, Sample.daemon, Daemon.init]
  tasks := [⟨0, { Env.quiet with now := 1000 }, [nul]⟩]
  perm := List.Perm.of_eq rfl
  remote := by
    intro task htask
    rw [List.mem_singleton.mp htask]
    exact ⟨fun _ => rfl⟩

theorem Sample.spelled_keys {key : Path} {pe : Entry} (he : Sample.spelled.entry key = some pe) :
    key = ['/', 'f'] ∨ key = ['/', 'g'] := by
  by_contra hno
  rw [not_or] at hno
  have hnone : Sample.spelled.hash key = none := by
    simp [hno, Sample.spelled, Sample.looked, World.insertEntry, Sample.daemon, Daemon.init]
  rw [World.entry, hnone] at he
  cases he

/-- The entry pushed spells its path. -/
theorem Sample.spelled_text : ∀ task ∈ Sample.spelledPass.tasks,
    task.text Sample.spelled = ['/', 'f'] := by
  decide

theorem Sample.spelled_tasksOn {path : Path} (hne : path ≠ ['/', 'f']) :
    Sample.spelled.tasksOn Sample.spelledPass.tasks path = [] := by
  unfold World.tasksOn
  split_ifs with hr
  · rfl
  · refine List.filter_eq_nil_iff.mpr fun task htask ht => hne ?_
    rw [← of_decide_eq_true ht, Sample.spelled_text task htask]

/-- The entry that is due is reached, and the other one is left alone. -/
theorem refresh_reaches_sample :
    ∃ t, Sample.spelledPass.tasks.foldlM PoolTask.run Sample.spelled = .ok t ∧
      (t.entry ['/', 'f']).map (·.atime) = some 1000 ∧ Sample.spelledPass.Refreshes t := by
  refine ⟨_, rfl, rfl, ?_⟩
  apply (refresh_reaches_iff Sample.spelledPass Sample.spelled_inv rfl).mpr
  constructor
  · intro key pe o he hd ho
    rcases Sample.spelled_keys he with rfl | rfl
    · have hpe := Option.some.inj he
      have hobj := Option.some.inj ho
      rw [← hpe, ← hobj]
      exact rfl
    · rw [← Option.some.inj he] at hd
      exact absurd hd.2 (by decide)
  · intro key pe he hd _
    rcases Sample.spelled_keys he with rfl | rfl
    · rw [← Option.some.inj he] at hd
      have hdue : ((2 * (352 + 64) : Nat) : Int) ≤ 10 * 1024 * 1024 ∧
          (120 : Int) ≤ ((1000 : Nat) : Int) - ((0 : Nat) : Int) := by decide
      exact (hd hdue).elim
    · rw [Sample.spelled_tasksOn (by decide)]
      refine ⟨nofun, fun path hp => ?_⟩
      apply World.firstFill_nil
      apply Sample.spelled_tasksOn
      rintro rfl
      revert hp
      decide

/-- A table with one entry, for `/f`, as a stat leaves it. -/
def Sample.known (objects : List (Path × Obj)) (usermd : Option Dict) (ondisk : OnDisk) : World :=
  ((Sample.daemon objects).world.insertEntry ['/', 'f']
    (pentryNew Env.quiet ['/', 'f'] .unnamed)).setEntry 0
    { pentryNew Env.quiet ['/', 'f'] .reg with usermd := usermd, ondisk := ondisk }

/-- A pass over it, long after the entry was looked at. -/
def Sample.pass (objects : List (Path × Obj)) (usermd : Option Dict) (ondisk : OnDisk) :
    Pass (Sample.known objects usermd ondisk) where
  conf := Sample.cached
  entrySize := 352
  now := fun _ => 1000
  keys := [['/', 'f']]
  nodup := List.nodup_singleton _
  mem_keys := by
    intro key
    by_cases hk : key = ['/', 'f']
    · simp [hk, Sample.known, World.setEntry, World.insertEntry]
    · simp [hk, Sample.known, World.setEntry, World.insertEntry, Sample.daemon, Daemon.init]
  tasks := [⟨0, { Env.quiet with now := 1000 }, [nul]⟩]
  perm := List.Perm.of_eq rfl
  remote := by
    intro task htask
    rw [List.mem_singleton.mp htask]
    exact ⟨fun _ => rfl⟩

/-- The entry is pushed, but its bytes are another path. -/
theorem Sample.pass_run (md : Option Dict) :
    ∃ t, (Sample.pass [(['/', 'f'], Sample.file [1])] md .remote).tasks.foldlM PoolTask.run
        (Sample.known [(['/', 'f'], Sample.file [1])] md .remote) = .ok t ∧
      (t.entry ['/', 'f']).map (·.atime) = some 0 := by
  have hget : ∃ r, dfsGetattr { Env.quiet with now := 1000 }
      (Sample.known [(['/', 'f'], Sample.file [1])] md .remote) ['ÿ', 'ÿ', 'ÿ', 'ÿ'] = .ok r ∧
      (r.2.2.entry ['/', 'f']).map (·.atime) = some 0 := ⟨_, rfl, rfl⟩
  obtain ⟨⟨ret, st, t⟩, hget, htime⟩ := hget
  refine ⟨t, ?_, htime⟩
  have hrun : PoolTask.run (Sample.known [(['/', 'f'], Sample.file [1])] md .remote)
      ⟨0, { Env.quiet with now := 1000 }, [nul]⟩ = .ok t := by
    refine Except.bind_ok.mpr
      ⟨{ pentryNew Env.quiet ['/', 'f'] .reg with usermd := md, ondisk := .remote }, rfl, ?_⟩
    have htext : cstr (fdBytes none ++ [nul]) = ['ÿ', 'ÿ', 'ÿ', 'ÿ'] := by decide
    change cbGetMd _ _ (cstr (fdBytes none ++ [nul])) = _
    rw [htext]
    exact Except.map_eq_ok.mpr ⟨_, hget, rfl⟩
  show List.foldlM PoolTask.run _ [_] = _
  rw [List.foldlM_cons, hrun]
  rfl

/-- The first stat of a file, and a pass long after it: the pool looks up the bytes of the entry,
and the entry stays as it was. -/
theorem pushed_entry_missed :
    ∃ md t, Transition.exec (Daemon.step Sample.plain)
        (Sample.daemon [(['/', 'f'], Sample.file [1])]) [Sample.call (.getattr ['/', 'f'])] =
          .ok ⟨Sample.known [(['/', 'f'], Sample.file [1])] md .remote, []⟩ ∧
      (Sample.pass [(['/', 'f'], Sample.file [1])] md .remote).tasks.foldlM PoolTask.run
        (Sample.known [(['/', 'f'], Sample.file [1])] md .remote) = .ok t ∧
      ¬(Sample.pass [(['/', 'f'], Sample.file [1])] md .remote).Refreshes t := by
  obtain ⟨d, hd, md, rfl⟩ : ∃ d, Transition.exec (Daemon.step Sample.plain)
      (Sample.daemon [(['/', 'f'], Sample.file [1])]) [Sample.call (.getattr ['/', 'f'])] = .ok d ∧
      ∃ md, d = ⟨Sample.known [(['/', 'f'], Sample.file [1])] md .remote, []⟩ :=
    ⟨_, rfl, _, rfl⟩
  obtain ⟨t, ht, htime⟩ := Sample.pass_run md
  refine ⟨md, t, hd, ht, fun h => ?_⟩
  have hdue : (Sample.pass [(['/', 'f'], Sample.file [1])] md .remote).Due ['/', 'f']
      { pentryNew Env.quiet ['/', 'f'] .reg with usermd := md, ondisk := .remote } := by
    constructor
    · change ((1 * (352 + 64) : Nat) : Int) ≤ 10 * 1024 * 1024
      decide
    · change (120 : Int) ≤ ((1000 : Nat) : Int) - ((0 : Nat) : Int)
      decide
  obtain ⟨pe', he, _, task, htask, hnow⟩ := h.due ['/', 'f'] _ (Sample.file [1]) rfl hdue rfl
  rw [he, Option.map_some, Option.some.injEq, hnow, List.mem_singleton.mp htask] at htime
  cases htime

end DropletFs
