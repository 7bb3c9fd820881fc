import DropletFs.Zip.Loops

/-! The zlib format without compression, and a zlib that writes and reads it. -/

namespace DropletFs

open CText Stream

/-- `len` and its complement, low byte first. -/
def storedLength (n : Nat) : Bytes :=
  [UInt8.ofNat n, UInt8.ofNat (n / 256), UInt8.ofNat (65535 - n), UInt8.ofNat ((65535 - n) / 256)]

/-- `n` full blocks and a last one. -/
def storedBlocks : Nat → Bytes → Bytes
  | 0, x => 1 :: storedLength x.length ++ x
  | n + 1, x => 0 :: storedLength 65535 ++ (x.take 65535 ++ storedBlocks n (x.drop 65535))

/-- The content of the blocks that data begins with. -/
def storedContent : Nat → Bytes → Bytes
  | fuel + 1, b :: lo :: hi :: _ :: _ :: rest =>
    if b = 1 then rest.take (lo.toNat + 256 * hi.toNat)
    else rest.take 65535 ++ storedContent fuel (rest.drop 65535)
  | _, _ => []

/-- The checksum behind the blocks, high byte first. -/
def adler32 (x : Bytes) : Bytes :=
  let (a, b) := x.foldl (fun (a, b) c => ((a + c.toNat) % 65521, (b + a + c.toNat) % 65521)) (1, 0)
  [UInt8.ofNat (b / 256), UInt8.ofNat b, UInt8.ofNat (a / 256), UInt8.ofNat a]

theorem lt_storedBlocks_length (n : Nat) : ∀ x, n < (storedBlocks n x).length := by
  induction n with
  | zero =>
    intro x
    exact Nat.zero_lt_succ _
  | succ n ih =>
    intro x
    have h := ih (x.drop 65535)
    rw [storedBlocks, storedLength]
    simp only [List.cons_append, List.nil_append, List.length_cons, List.length_append]
    omega

theorem storedContent_blocks (rest : Bytes) (n : Nat) : ∀ (x : Bytes) (fuel : Nat), n < fuel →
    65535 * n ≤ x.length → x.length ≤ 65535 * (n + 1) →
      storedContent fuel (storedBlocks n x ++ rest) = x := by
  -- along the blocks; what lies behind them is not looked at
  induction n with
  | zero =>
    intro x fuel hfuel _ hx
    obtain ⟨m, rfl⟩ : ∃ m, fuel = m + 1 := ⟨fuel - 1, by omega⟩
    rw [storedBlocks, storedLength]
    simp only [List.cons_append, List.nil_append, storedContent, if_true]
    have hlen : (UInt8.ofNat x.length).toNat + 256 * (UInt8.ofNat (x.length / 256)).toNat =
        x.length := by
      rw [UInt8.toNat_ofNat', UInt8.toNat_ofNat']
      omega
    rw [hlen, List.take_left']
    rfl
  | succ n ih =>
    intro x fuel hfuel hlo hhi
    obtain ⟨m, rfl⟩ : ∃ m, fuel = m + 1 := ⟨fuel - 1, by omega⟩
    have hfull : (x.take 65535).length = 65535 := by
      rw [List.length_take]
      omega
    have hdrop : (x.drop 65535).length = x.length - 65535 := List.length_drop ..
    have hrest := ih (x.drop 65535) m (by omega) (by omega) (by omega)
    rw [storedBlocks, storedLength]
    simp only [List.cons_append, List.nil_append, List.append_assoc, storedContent]
    rw [if_neg (by decide), List.take_left' hfull, List.drop_left' hfull, hrest,
      List.take_append_drop]

/-- A word is a header, the blocks and the checksum. -/
def stored : PrefixCode UInt8 where
  code x := 0x78 :: 0x01 :: (storedBlocks ((x.length - 1) / 65535) x ++ adler32 x)
  value w := storedContent w.length (w.drop 2)
  value_append := by
    intro x rest
    have hfuel := lt_storedBlocks_length ((x.length - 1) / 65535) x
    show storedContent _ (storedBlocks _ x ++ adler32 x ++ rest) = x
    rw [List.append_assoc]
    apply storedContent_blocks
    · simp only [List.length_append, List.length_cons]
      omega
    · omega
    · omega
  proper := nofun

/-- zlib at level 0. -/
def storedZlib : Zlib (PrefixCode.Writer UInt8) (PrefixCode.Reader UInt8) where
  deflateInit level := (if level = 0 then .ok else .streamError, .taking [])
  deflate := stored.writeStep .ok .streamEnd
  inflateInit := (.ok, .taking [])
  inflate := stored.readStep .ok .streamEnd

theorem storedZlib_lawful : storedZlib.Lawful stored.encoding where
  deflateInit := by
    intro level
    show ZCode.Init (if level = 0 then .ok else .streamError)
    split
    · exact .inl rfl
    · exact .inr (.inr (.inl rfl))
  inflateInit := .inl rfl
  deflate := by
    refine ⟨_, _, stored.writes_words rfl rfl, ?_⟩
    intro level t h
    rw [← (Prod.mk.inj h).2]
    exact ⟨rfl, rfl⟩
  inflate := by
    refine ⟨_, _, _, stored.reads_words rfl rfl, ?_⟩
    intro t h
    rw [← (Prod.mk.inj h).2]
    exact ⟨rfl, rfl, stored.encoding.not_begins_nil⟩

theorem storedZlib_not_starves : ¬storedZlib.Starves := by
  intro h
  obtain ⟨t, inp, hc⟩ := h
  have hr : (stored.readStep ZCode.ok .streamEnd t inp chunk).code = .memError := hc
  cases stored.readStep_code ZCode.ok ZCode.streamEnd t inp chunk with
  | inl h => cases h.symm.trans hr
  | inr h => cases h.symm.trans hr

/-- What zlib makes of the letter `a` at level 0. -/
example : stored.code [97] =
    [0x78, 0x01, 0x01, 0x01, 0x00, 0xfe, 0xff, 97, 0x00, 98, 0x00, 98] := by
  decide

end DropletFs
