import DropletFs.Model.Sample
import DropletFs.Table.Lasting

/-! What every reachable table looks like from outside: the fields of its entries agree with
one another, whichever remote and file calls have failed. -/

namespace DropletFs

open CText LocalFs

/-- A remote entry has the metadata `dfs_getattr` answers from. -/
def Entry.Known (pe : Entry) : Prop := pe.ondisk = .remote → pe.usermd.isSome

def World.AllKnown (s : World) : Prop := ∀ a pe, s.heap a = some pe → pe.Known

theorem Entry.Known.congr {pe pe' : Entry} (h : pe.Known) (ho : pe'.ondisk = pe.ondisk)
    (hm : pe.usermd.isSome → pe'.usermd.isSome) : pe'.Known := by
  intro hr
  exact hm (h (ho ▸ hr))

theorem pentryNew_known (path : Path) (type : TPathType) :
    ((pentryNew env path type) : Entry).Known := by
  rintro ⟨⟩

/-- A dictionary for the metadata of an entry can be allocated. -/
def Env.Allocates (env : Env) : Prop := env.lib .usermdDict = true

theorem pentrySetUsermd_isSome {env : Env} (hal : env.Allocates) (pe : Entry) (dict : Dict) :
    (pentrySetUsermd env pe dict).2.usermd.isSome := by
  unfold pentrySetUsermd
  rw [hal]
  cases env.lib .usermdCopy <;> rfl

section Entries

variable {cx : Ctx} {env : Env} {st st' : Store} {fs fs' : LocalFs} {path : Path}
  {pe pe' : Entry} {ret : Int}

/-- A download keeps or renews the metadata. -/
theorem dfsGetLocalCopy_known (hal : env.Allocates) {flags : OpenFlags} {fd : Option Nat}
    (h : dfsGetLocalCopy cx env st fs pe path flags = .ok (fd, pe', fs')) :
    pe.usermd.isSome → pe'.usermd.isSome := by
  intro hpe
  have hnop : Except.ok (none, pe, fs) = Except.ok (ε := Fault) (fd, pe', fs') →
      pe'.usermd.isSome := by
    intro he
    simp only [Except.ok.injEq, Prod.mk.injEq] at he
    exact he.2.1 ▸ hpe
  unfold dfsGetLocalCopy at h
  dsimp only at h
  by_cases h1 : (downloadHeaders env st path).1 = -1 ∨ env.lib .metadataDict = false
  · rw [if_pos h1] at h
    exact hnop h
  rw [if_neg h1] at h
  split at h
  · cases h
  rename_i headers _
  by_cases h2 : env.lib .metadataFromHeaders = false
  · rw [if_pos h2] at h
    exact hnop h
  rw [if_neg h2] at h
  unfold localCopy at h
  obtain ⟨pl, hl, h⟩ := Except.bind_ok.mp h
  have hset := pentrySetUsermd_isSome hal pl headers.userMeta
  dsimp only at h
  generalize pentrySetUsermd env pl headers.userMeta = res at h hset
  split_ifs at h
  · simp only [Except.ok.injEq, Prod.mk.injEq] at h
    exact h.2.1 ▸ hset
  · obtain ⟨d, hd⟩ := compareDigests_snd (pentryMdUnlock res.2) headers
    split at h
    · rename_i qe hq
      rw [hq] at hd
      simp only [Except.ok.injEq, Prod.mk.injEq] at h
      rw [← h.2.1, show qe = _ from hd]
      exact hset
    · rename_i r qe _ hq
      rw [hq] at hd
      simp only [Except.ok.injEq, Prod.mk.injEq] at h
      rw [← h.2.1, show qe = _ from hd]
      exact hset

theorem openMode_known (hal : env.Allocates) {smode : StateMode}
    (h : openMode cx env st fs path pe smode = .ok (ret, pe', fs')) :
    pe.usermd.isSome → pe'.usermd.isSome := by
  have hexist : ∀ {r : Int} {qe : Entry} {gs : LocalFs},
      openExisting cx env st fs path pe (openFlags smode) = .ok (r, qe, gs) →
      pe.usermd.isSome → qe.usermd.isSome := by
    intro r qe gs h hpe
    unfold openExisting at h
    cases hfd : pe.fd with
    | some fd =>
      simp only [hfd, Except.ok.injEq, Prod.mk.injEq] at h
      exact h.2.1 ▸ hpe
    | none =>
      rw [hfd] at h
      obtain ⟨⟨fd, re, gs⟩, hg, h⟩ := Except.bind_ok.mp h
      simp only [Except.ok.injEq, Prod.mk.injEq] at h
      rw [← h.2.1]
      change re.usermd.isSome
      exact dfsGetLocalCopy_known hal hg hpe
  have hwr : openWronly cx env st fs path pe (openFlags smode) = .ok (ret, pe', fs') →
      pe.usermd.isSome → pe'.usermd.isSome := by
    intro h hpe
    obtain ⟨⟨r, qe, gs⟩, hg, h⟩ := Except.bind_ok.mp h
    simp only [Except.ok.injEq, Prod.mk.injEq] at h
    rw [← h.2.1]
    have hq := hexist hg hpe
    split_ifs
    · exact hq
    · exact hq
  unfold openMode at h
  cases smode with
  | rdonly => exact hexist h
  | wronly => exact hwr h
  | rdwr => exact hwr h
  | creat =>
    simp only [Except.ok.injEq] at h
    unfold openCreat at h
    split at h
    · simp only [Prod.mk.injEq] at h
      rw [← h.2.1]
      exact id
    · simp only [Prod.mk.injEq] at h
      rw [← h.2.1]
      exact id

end Entries

/-- Where dictionaries can be allocated, a remote entry keeps its metadata. -/
theorem Entry.Known.lasting (cx : Ctx) {env : Env} (hal : env.Allocates) :
    Lasting cx env Entry.Known where
  new := pentryNew_known
  filetype _ h := h
  dirent _ h := h
  atime _ h := h
  locked _ _ h := h
  stated dict _ := by
    intro _
    change (keptUsermd env dict).isSome
    have hset := pentrySetUsermd_isSome hal (pentryNew env [] .reg) dict
    rwa [pentrySetUsermd_eq] at hset
  opened := by
    intro st fs fs' path pe qe m ret hw ho h
    split_ifs
    · have hinc : (pentryIncRefcount pe).Known := h
      exact hinc.congr (openMode_spec hw ho).ondisk (openMode_known hal ho)
    · rintro ⟨⟩
  created x md l hloc _ := by
    intro hr
    change _ = OnDisk.remote at hr
    rw [hloc] at hr
    cases hr
  attributes _ _ := fun _ => rfl
  released _ _ _ _ h := h

/-- The entry `dfs_getattr` hands to `getattr_local`, when it does. -/
def World.statsLocally (env : Env) (s : World) (path : Path) : Option Entry :=
  (lookupOrPopulate env s path .reg).bind fun p => (p.2.heap p.1).filter fun pe => pe.ondisk = .loc

/-- The entry `dfs_open` hands to `dfs_get_local_copy`, when it does. -/
def World.copiesFor (env : Env) (s : World) (path : Path) (flags : OpenFlags) : Option Entry :=
  (lookupOrPopulate env s path .reg).bind fun p => (p.2.heap p.1).filter fun pe =>
    getModeFromFlags flags ≠ .creat ∧ pe.fd = none

/-- The fields of the entries agree with the keys and with one another. -/
structure World.Represents (s : World) : Prop where
  path : ∀ key pe, s.entry key = some pe → pe.path = key
  cached : ∀ key pe, s.entry key = some pe → (pe.fd.isSome ↔ pe.ondisk = .loc)
  known : ∀ key pe, s.entry key = some pe → pe.ondisk = .remote → pe.usermd.isSome
  distinct : ∀ key key' pe pe' fd, s.entry key = some pe → s.entry key' = some pe' →
    pe.fd = some fd → pe'.fd = some fd → key = key'
  stats : ∀ env path pe, s.statsLocally env path = some pe → pe.fd.isSome
  copies : ∀ env path flags pe, s.copiesFor env path flags = some pe → pe.ondisk ≠ .loc

theorem World.Inv.represents {s : World} (hi : s.Inv) (hs : s.AllKnown) : s.Represents := by
  have hent : ∀ key pe, s.entry key = some pe →
      ∃ a, s.hash key = some a ∧ s.heap a = some pe ∧ pe.path = key := by
    intro key pe he
    obtain ⟨a, ha, hpe⟩ := Option.bind_eq_some_iff.mp he
    obtain ⟨qe, hqe, hqp⟩ := hi.entry key a ha
    obtain rfl : pe = qe := by rwa [hpe, Option.some.injEq] at hqe
    exact ⟨a, ha, hpe, hqp⟩
  refine ⟨fun key pe he => ?_, fun key pe he => ?_, fun key pe he => ?_, ?_, ?_, ?_⟩
  · obtain ⟨_, _, _, hp⟩ := hent key pe he
    exact hp
  · obtain ⟨a, _, ha, _⟩ := hent key pe he
    exact (hi.cached a pe ha).symm
  · obtain ⟨a, _, ha, _⟩ := hent key pe he
    exact hs a pe ha
  · intro key key' pe pe' fd he he' hf hf'
    obtain ⟨a, hh, ha, _⟩ := hent key pe he
    obtain ⟨b, hh', hb, _⟩ := hent key' pe' he'
    have hab := hi.distinct a b pe pe' fd ha hb hf hf'
    exact hi.addr_inj hh (hab ▸ hh')
  · intro env path pe he
    obtain ⟨⟨a, u⟩, hl, he⟩ := Option.bind_eq_some_iff.mp he
    obtain ⟨ha, ho⟩ := Option.filter_eq_some_iff.mp he
    exact ((lookupOrPopulate_spec hi hl).inv.cached a pe ha).mp (by simpa using ho)
  · intro env path flags pe he
    obtain ⟨⟨a, u⟩, hl, he⟩ := Option.bind_eq_some_iff.mp he
    obtain ⟨ha, hn⟩ := Option.filter_eq_some_iff.mp he
    simp only [decide_eq_true_eq] at hn
    rw [Ne, (lookupOrPopulate_spec hi hl).inv.cached a pe ha, hn.2]
    simp

/-- Whatever callbacks and collector passes have completed, and whichever remote and file calls
have failed in them, the table represents. -/
theorem table_represents (cx : Ctx) (store : Store) (fs : LocalFs) (ring : Ring)
    (calls : List Call) (d : Daemon) (hw : fs.Wf) (hal : ∀ c ∈ calls, c.env.Allocates)
    (hr : Transition.exec (Daemon.step cx) (.init store fs ring) calls = .ok d) :
    d.world.Represents := by
  have hm : Transition.Meets (Daemon.step cx) (fun _ c => c.env.Allocates) (.init store fs ring)
      calls := Transition.meets_of_forall hal _
  obtain ⟨hi, hs⟩ := Transition.exec_invariant
    (I := fun d : Daemon => d.world.Inv ∧ d.world.AllKnown)
    (fun s c t ⟨hi, hs⟩ hg ht => by
      obtain ⟨ret, hc⟩ := Daemon.step_cases ht
      exact ⟨hc.inv hi, (Entry.Known.lasting cx hg).calls hi hs hc⟩)
    ⟨Daemon.init_inv hw, fun a pe ha => by cases ha⟩ hm hr
  exact hi.represents hs

/-- A failed download leaves `/f` unset; the `getattr` that follows finds it remote. -/
def failThenStat : List Call :=
  [⟨.open ['/', 'f'] Sample.readOnly, { Env.quiet with sys := fun _ => some .eperm }⟩,
    Sample.call (.getattr ['/', 'f'])]

theorem table_represents_sample :
    ∃ d, Transition.exec (Daemon.step Sample.plain)
        (Sample.daemon [(['/', 'f'], Sample.file [1])]) failThenStat = .ok d ∧
      (d.world.entry ['/', 'f']).map (·.ondisk) = some .remote ∧ d.world.Represents := by
  have hal : ∀ c ∈ failThenStat, c.env.Allocates := by
    simp [failThenStat, Env.Allocates, Sample.call, Env.quiet]
  exact ⟨_, rfl, rfl, table_represents Sample.plain (Sample.store [(['/', 'f'], Sample.file [1])])
    Sample.fs Sample.ring failThenStat _ Sample.fs_wf hal rfl⟩

end DropletFs
