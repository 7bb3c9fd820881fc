import DropletFs.Rename.Frame

/-! What the store holds below a directory, and how many temporary strings its rename takes. -/

namespace DropletFs

open CText LocalFs

/-- The entries of a directory in listing order, each directory with its own. -/
inductive Forest
  | nil
  | file (name : CStr) (rest : Forest)
  | dir (name : CStr) (sub rest : Forest)
  deriving DecidableEq

/-- A name the loop neither skips nor takes for a path. -/
def Proper (x : CStr) : Prop := x ≠ [] ∧ '/' ∉ x ∧ x ≠ ['.'] ∧ x ≠ ['.', '.']

instance (x : CStr) : Decidable (Proper x) := inferInstanceAs (Decidable (_ ∧ _))

namespace Forest

def names : Forest → List CStr
  | nil => []
  | file x rest => x :: rest.names
  | dir x _ rest => x :: rest.names

/-- The names as `dpl_readdir` spells them. -/
def listed : Forest → List CStr
  | nil => []
  | file x rest => x :: rest.listed
  | dir x _ rest => (x ++ ['/']) :: rest.listed

/-- The store holds these entries in directory `p`. -/
def In (st : Store) (p : Path) : Forest → Prop
  | nil => True
  | file x rest => Proper x ∧ x ∉ rest.names ∧
      (∃ type, st.ftype? (child p x) = some type ∧ type ≠ .dir) ∧ rest.In st p
  | dir x sub rest => Proper x ∧ x ∉ rest.names ∧
      st.ftype? (child p x) = some .dir ∧ st.children (child p x) = sub.names ∧
      sub.In st (child p x) ∧ rest.In st p

/-- Temporary strings the loop over the entries of `p` takes when every call succeeds: two for
the paths of an entry, one for the cache name, and one for a freed path. -/
def cost (hash : Path → Option Addr) (p : Path) : Forest → Nat
  | nil => 0
  | file x rest => 3 + (if (hash (child p x)).isSome then 1 else 0) + rest.cost hash p
  | dir x sub rest => 3 + sub.cost hash (child p x) + rest.cost hash p

/-- No directory below `p` takes more strings than its own two paths last. -/
def RingSafe (hash : Path → Option Addr) (p : Path) : Forest → Prop
  | nil => True
  | file _ rest => rest.RingSafe hash p
  | dir x sub rest => sub.cost hash (child p x) ≤ 29 ∧ sub.RingSafe hash (child p x) ∧
      rest.RingSafe hash p

/-- Every path below `p` fits a temporary string. -/
def Short (p : Path) : Forest → Prop
  | nil => True
  | file x rest => (child p x).length < tmpstrMax ∧ rest.Short p
  | dir x sub rest => (child p x).length < tmpstrMax ∧ sub.Short (child p x) ∧ rest.Short p

end Forest

theorem entryPath_file {p x : CStr} (hx : Proper x) (hl : (child p x).length < tmpstrMax) :
    entryPath p x = child p x := by
  have hlast : (child p x).getLast? ≠ some '/' := by
    rw [child, List.getLast?_append_of_ne_nil _ (by simp), List.getLast?_cons_of_ne_nil hx.1]
    intro h
    exact hx.2.1 (List.mem_of_getLast? h)
  rw [entryPath_eq, tmpstr, snprintf_of_lt hl, chopSlash, if_neg hlast]

/-- The slash `dpl_readdir` puts behind a directory's name goes again, unless the buffer has no
room for it. -/
theorem entryPath_dir {p x : CStr} (hx : Proper x) (hl : (child p x).length < tmpstrMax) :
    entryPath p (x ++ ['/']) = child p x := by
  have hc : child p (x ++ ['/']) = child p x ++ ['/'] := by simp [child]
  have hlast : (child p x).getLast? ≠ some '/' := by
    rw [child, List.getLast?_append_of_ne_nil _ (by simp), List.getLast?_cons_of_ne_nil hx.1]
    intro h
    exact hx.2.1 (List.mem_of_getLast? h)
  rw [entryPath_eq, tmpstr, hc, snprintf, chopSlash]
  by_cases hmax : (child p x).length = tmpstrMax - 1
  · rw [List.take_append_of_le_length (by omega), List.take_of_length_le (by omega), if_neg hlast]
  · rw [List.take_of_length_le (by simp; omega)]
    simp

theorem Proper.not_dot {x : CStr} (hx : Proper x) : ¬(x = ['.'] ∨ x = ['.', '.']) := by
  rintro (h | h)
  · exact hx.2.2.1 h
  · exact hx.2.2.2 h

theorem slash_not_dot (x : CStr) : ¬(x ++ ['/'] = ['.'] ∨ x ++ ['/'] = ['.', '.']) := by
  have key : ∀ y : CStr, '/' ∉ y → x ++ ['/'] ≠ y := by
    rintro y hy rfl
    exact hy (by simp)
  rintro (h | h)
  · exact key _ (by decide) h
  · exact key _ (by decide) h

theorem child_ne_nil (p x : CStr) : child p x ≠ [] := by simp [child]

theorem child_ne_root {p : CStr} (hp : p ≠ []) (x : CStr) : child p x ≠ rootPath := by
  intro he
  have hl := congrArg List.length he
  have hpos := List.length_pos_iff.mpr hp
  simp only [child_length, rootPath, List.length_singleton] at hl
  omega

theorem World.Same.ftype {s t : World} {p : Path} (h : World.Same p s t) :
    t.store.ftype? p = s.store.ftype? p := by
  rw [Store.ftype?, Store.ftype?, h.lookup p (Within.refl p)]

namespace Forest

theorem listed_eq {st : Store} {p : Path} (hp : p ≠ rootPath) {f : Forest} (h : f.In st p) :
    f.names.map (st.direntName p) = f.listed := by
  induction f with
  | nil => rfl
  | file x rest ih =>
    obtain ⟨_, _, ⟨type, ht, hd⟩, hrest⟩ := h
    have hne : st.ftype? (childPath p x) ≠ some .dir := by
      rw [childPath_of_ne hp, ht]
      simpa using hd
    simp only [names, listed, List.map_cons, ih hrest, Store.direntName, if_neg hne]
  | dir x sub rest _ ih =>
    obtain ⟨_, _, ht, _, _, hrest⟩ := h
    simp only [names, listed, List.map_cons, ih hrest, Store.direntName, childPath_of_ne hp,
      if_pos ht]

theorem In.proper {st : Store} {p x : Path} {f : Forest} (h : f.In st p) (hx : x ∈ f.names) :
    Proper x := by
  induction f with
  | nil => cases hx
  | file y rest ih =>
    rcases List.mem_cons.mp hx with rfl | hx
    · exact h.1
    · exact ih h.2.2.2 hx
  | dir y sub rest _ ih =>
    rcases List.mem_cons.mp hx with rfl | hx
    · exact h.1
    · exact ih h.2.2.2.2.2 hx

/-- What is below `p` stays as long as nothing at or below its entries changes. -/
theorem In.congr {s t : World} {p : Path} (hp : p ≠ []) {f : Forest} (h : f.In s.store p)
    (hs : ∀ x ∈ f.names, World.Same (child p x) s t) : f.In t.store p := by
  induction f generalizing p with
  | nil => trivial
  | file x rest ih =>
    obtain ⟨hx, hn, ht, hrest⟩ := h
    have hsame := hs x (List.mem_cons_self ..)
    have hrest' := ih hp hrest fun y hy => hs y (List.mem_cons_of_mem x hy)
    exact ⟨hx, hn, by rwa [hsame.ftype], hrest'⟩
  | dir x sub rest ihsub ih =>
    obtain ⟨hx, hn, ht, hc, hin, hrest⟩ := h
    have hsame := hs x (List.mem_cons_self ..)
    have hrest' := ih hp hrest fun y hy => hs y (List.mem_cons_of_mem x hy)
    have hsub' := ihsub (child_ne_nil p x) hin fun y _ => hsame.mono (Within.child_self _ y)
    have hc' := hsame.children _ (child_ne_root hp x) (Within.refl _)
    exact ⟨hx, hn, by rw [hsame.ftype, ht], by rw [hc', hc], hsub', hrest'⟩

section Table

variable {hash hash' : Path → Option Addr} {p : Path} {f : Forest}

theorem cost_congr
    (hs : ∀ x ∈ f.names, ∀ q, Within (child p x) q → hash' q = hash q) :
    f.cost hash' p = f.cost hash p := by
  induction f generalizing p with
  | nil => rfl
  | file x rest ih =>
    have hx := hs x (List.mem_cons_self ..) _ (Within.refl _)
    rw [cost, cost, hx, ih fun y hy => hs y (List.mem_cons_of_mem x hy)]
  | dir x sub rest ihsub ih =>
    have hsub := ihsub (p := child p x) fun y _ q hq =>
      hs x (List.mem_cons_self ..) q ((Within.child_self _ y).trans hq)
    rw [cost, cost, hsub, ih fun y hy => hs y (List.mem_cons_of_mem x hy)]

theorem RingSafe.congr (h : f.RingSafe hash p)
    (hs : ∀ x ∈ f.names, ∀ q, Within (child p x) q → hash' q = hash q) :
    f.RingSafe hash' p := by
  induction f generalizing p with
  | nil => trivial
  | file x rest ih => exact ih h fun y hy => hs y (List.mem_cons_of_mem x hy)
  | dir x sub rest ihsub ih =>
    obtain ⟨hc, hin, hrest⟩ := h
    have hsub : ∀ y ∈ sub.names, ∀ q, Within (child (child p x) y) q → hash' q = hash q :=
      fun y _ q hq => hs x (List.mem_cons_self ..) q ((Within.child_self _ y).trans hq)
    exact ⟨by rwa [cost_congr hsub], ihsub hin hsub,
      ih hrest fun y hy => hs y (List.mem_cons_of_mem x hy)⟩

end Table

end Forest

/-- Directory `p` of the store and everything below it. -/
structure Store.Holds (st : Store) (p : Path) (f : Forest) : Prop where
  dir : st.ftype? p = some .dir
  children : st.children p = f.names
  entries : f.In st p

end DropletFs
