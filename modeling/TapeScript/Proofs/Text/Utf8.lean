import TapeScript.Text.Utf8

/-! Decoding gives back every text that was encoded, and an encoded text holds the byte of a line break
only where the text has one. -/
namespace TapeScript.Text

namespace Utf8

private theorem toNat_byte {n : Nat} (small : n < 256) : (UInt8.ofNat n).toNat = n := by
  rw [UInt8.toNat_ofNat']
  exact Nat.mod_eq_of_lt small

private theorem le_byte {bound : UInt8} {n : Nat} (small : n < 256) : bound ≤ UInt8.ofNat n ↔ bound.toNat ≤ n := by
  rw [UInt8.le_iff_toNat_le, toNat_byte small]

private theorem byte_le {bound : UInt8} {n : Nat} (small : n < 256) : UInt8.ofNat n ≤ bound ↔ n ≤ bound.toNat := by
  rw [UInt8.le_iff_toNat_le, toNat_byte small]

private theorem lead_one {code : Nat} (small : code < 0x80) : lead (UInt8.ofNat code) = .char (Char.ofNat code) := by
  rw [lead, toNat_byte (by omega)]
  exact if_pos small

private theorem lead_two {bits : Nat} (least : 2 ≤ bits) (most : bits < 32) :
    lead (UInt8.ofNat (bits + 192)) = .sequence { bits, missing := 1 } := by
  rw [lead, toNat_byte (by omega)]
  rw [if_neg (by omega), if_neg (by omega), if_pos (by omega), Nat.add_sub_cancel]

/-- The range of the second byte keeps out what has a shorter form, and the surrogates. -/
private theorem lead_three (bits next : Nat) (most : bits < 16) (nextSmall : next < 64)
    (long : bits = 0 → 32 ≤ next) (scalar : bits = 13 → next < 32) :
    ∃ low high, lead (UInt8.ofNat (bits + 224)) = .sequence { bits, missing := 2, low, high } ∧
      low ≤ UInt8.ofNat (next + 128) ∧ UInt8.ofNat (next + 128) ≤ high := by
  simp only [le_byte (show next + 128 < 256 by omega), byte_le (show next + 128 < 256 by omega)]
  rw [lead, toNat_byte (by omega)]
  rw [if_neg (by omega), if_neg (by omega), if_neg (by omega)]
  by_cases zero : bits = 0
  · have range := long zero
    rw [if_pos (by omega)]
    exact ⟨0xA0, 0xBF, by rw [zero], show 160 ≤ next + 128 by omega, show next + 128 ≤ 191 by omega⟩
  · rw [if_neg (by omega)]
    by_cases surrogate : bits = 13
    · have range := scalar surrogate
      rw [if_pos (by omega)]
      exact ⟨0x80, 0x9F, by rw [surrogate], show 128 ≤ next + 128 by omega, show next + 128 ≤ 159 by omega⟩
    · rw [if_neg (by omega), if_pos (by omega), Nat.add_sub_cancel]
      exact ⟨0x80, 0xBF, rfl, show 128 ≤ next + 128 by omega, show next + 128 ≤ 191 by omega⟩

private theorem lead_four (bits next : Nat) (most : bits ≤ 4) (nextSmall : next < 64)
    (long : bits = 0 → 16 ≤ next) (scalar : bits = 4 → next < 16) :
    ∃ low high, lead (UInt8.ofNat (bits + 240)) = .sequence { bits, missing := 3, low, high } ∧
      low ≤ UInt8.ofNat (next + 128) ∧ UInt8.ofNat (next + 128) ≤ high := by
  simp only [le_byte (show next + 128 < 256 by omega), byte_le (show next + 128 < 256 by omega)]
  rw [lead, toNat_byte (by omega)]
  rw [if_neg (by omega), if_neg (by omega), if_neg (by omega), if_neg (by omega), if_neg (by omega), if_neg (by omega)]
  by_cases zero : bits = 0
  · have range := long zero
    rw [if_pos (by omega)]
    exact ⟨0x90, 0xBF, by rw [zero], show 144 ≤ next + 128 by omega, show next + 128 ≤ 191 by omega⟩
  · rw [if_neg (by omega)]
    by_cases last : bits = 4
    · have range := scalar last
      rw [if_neg (by omega), if_pos (by omega)]
      exact ⟨0x80, 0x8F, by rw [last], show 128 ≤ next + 128 by omega, show next + 128 ≤ 143 by omega⟩
    · rw [if_pos (by omega), Nat.add_sub_cancel]
      exact ⟨0x80, 0xBF, rfl, show 128 ≤ next + 128 by omega, show next + 128 ≤ 191 by omega⟩

private theorem feed_lead {found : List Char} {byte : UInt8} {sequence : Partial}
    (leads : lead byte = .sequence sequence) :
    Decoder.feed { found } byte = { found, open? := some sequence } := by
  simp only [Decoder.feed, Decoder.start, leads]

private theorem feed_more {found : List Char} {bits next : Nat} (missing : Nat) {low high : UInt8} (small : next < 64)
    (above : low ≤ UInt8.ofNat (next + 128)) (below : UInt8.ofNat (next + 128) ≤ high) :
    Decoder.feed { found, open? := some { bits, missing := missing + 2, low, high } } (UInt8.ofNat (next + 128)) =
      { found, open? := some { bits := bits * 64 + next, missing := missing + 1 } } := by
  simp only [Decoder.feed]
  rw [if_pos ⟨above, below⟩, toNat_byte (by omega), if_neg (by omega), Nat.add_sub_cancel]
  rfl

private theorem feed_last {found : List Char} {bits next : Nat} {low high : UInt8} (small : next < 64)
    (above : low ≤ UInt8.ofNat (next + 128)) (below : UInt8.ofNat (next + 128) ≤ high) :
    Decoder.feed { found, open? := some { bits, missing := 1, low, high } } (UInt8.ofNat (next + 128)) =
      { found := Char.ofNat (bits * 64 + next) :: found } := by
  simp only [Decoder.feed]
  rw [if_pos ⟨above, below⟩, toNat_byte (by omega), if_pos (Nat.le_refl 1), Nat.add_sub_cancel]

/-- Any byte of a sequence after the second. -/
private theorem continues {next : Nat} (small : next < 64) :
    (0x80 : UInt8) ≤ UInt8.ofNat (next + 128) ∧ UInt8.ofNat (next + 128) ≤ (0xBF : UInt8) := by
  rw [le_byte (by omega), byte_le (by omega)]
  exact ⟨show 128 ≤ next + 128 by omega, show next + 128 ≤ 191 by omega⟩

/-- The bytes of one character are decoded to it. -/
theorem feed_encoded (found : List Char) (c : Char) :
    (String.utf8EncodeChar c).foldl Decoder.feed { found } = { found := c :: found } := by
  have scalar : c.val.toNat < 0xD800 ∨ 0xDFFF < c.val.toNat ∧ c.val.toNat < 0x110000 := c.valid
  have restore {n : Nat} (same : n = c.val.toNat) : Char.ofNat n = c := by
    rw [same]
    exact Char.ofNat_toNat c
  rw [String.utf8EncodeChar]
  generalize c.val.toNat = v at scalar restore
  by_cases one : v ≤ 127
  · rw [if_pos one, List.foldl_cons, List.foldl_nil]
    simp only [Decoder.feed, Decoder.start]
    rw [lead_one (by omega), restore rfl]
  rw [if_neg one]
  by_cases two : v ≤ 2047
  · rw [if_pos two, Nat.mod_eq_of_lt (show v / 64 < 32 by omega)]
    simp only [List.foldl_cons, List.foldl_nil]
    have last : v % 64 < 64 := Nat.mod_lt _ (by decide)
    rw [feed_lead (lead_two (by omega) (by omega)), feed_last last (continues last).1 (continues last).2,
      restore (by omega)]
  rw [if_neg two]
  by_cases three : v ≤ 65535
  · rw [if_pos three, Nat.mod_eq_of_lt (show v / 4096 < 16 by omega)]
    simp only [List.foldl_cons, List.foldl_nil]
    have second : v / 64 % 64 < 64 := Nat.mod_lt _ (by decide)
    have last : v % 64 < 64 := Nat.mod_lt _ (by decide)
    obtain ⟨low, high, leads, above, below⟩ := lead_three (v / 4096) (v / 64 % 64) (by omega) second
      (by omega) (by omega)
    rw [feed_lead leads, feed_more 0 second above below, feed_last last (continues last).1 (continues last).2,
      restore (by omega)]
  · rw [if_neg three, Nat.mod_eq_of_lt (show v / 262144 < 8 by omega)]
    simp only [List.foldl_cons, List.foldl_nil]
    have second : v / 4096 % 64 < 64 := Nat.mod_lt _ (by decide)
    have third : v / 64 % 64 < 64 := Nat.mod_lt _ (by decide)
    have last : v % 64 < 64 := Nat.mod_lt _ (by decide)
    obtain ⟨low, high, leads, above, below⟩ := lead_four (v / 262144) (v / 4096 % 64) (by omega) second
      (by omega) (by omega)
    rw [feed_lead leads, feed_more 1 second above below,
      feed_more 0 third (continues third).1 (continues third).2,
      feed_last last (continues last).1 (continues last).2, restore (by omega)]

private theorem feed_text (found chars : List Char) :
    (chars.flatMap String.utf8EncodeChar).foldl Decoder.feed { found } = { found := chars.reverse ++ found } := by
  induction chars generalizing found with
  | nil => rfl
  | cons c chars ih =>
    rw [List.flatMap_cons, List.foldl_append, feed_encoded, ih]
    simp

end Utf8

theorem ofUtf8_utf8 (text : String) : ofUtf8 (utf8 text) = text := by
  rw [ofUtf8, utf8, Utf8.feed_text]
  simp [Utf8.Decoder.finish]

/-- The bytes of every other character are different from that of a line break. -/
private theorem break_of_mem {c : Char} (member : 10 ∈ String.utf8EncodeChar c) : c = '\n' := by
  rw [String.utf8EncodeChar] at member
  have large {n : Nat} (least : 128 ≤ n) (most : n < 256) : (10 : UInt8) ≠ UInt8.ofNat n := by
    intro same
    have value := congrArg UInt8.toNat same
    rw [UInt8.toNat_ofNat', Nat.mod_eq_of_lt most] at value
    change 10 = n at value
    omega
  split at member
  · rename_i small
    have value := congrArg UInt8.toNat (List.mem_singleton.mp member)
    have byte : c.val.toNat < 256 := Nat.lt_of_le_of_lt small (by decide)
    rw [UInt8.toNat_ofNat', Nat.mod_eq_of_lt byte] at value
    exact Char.toNat_inj.mp value.symm
  · split at member
    · simp only [List.mem_cons, List.not_mem_nil, or_false] at member
      rcases member with same | same <;> exact absurd same (large (by omega) (by omega))
    · split at member
      · simp only [List.mem_cons, List.not_mem_nil, or_false] at member
        rcases member with same | same | same <;> exact absurd same (large (by omega) (by omega))
      · simp only [List.mem_cons, List.not_mem_nil, or_false] at member
        rcases member with same | same | same | same <;> exact absurd same (large (by omega) (by omega))

theorem break_mem_of_utf8 {text : String} (member : 10 ∈ utf8 text) : '\n' ∈ text.toList := by
  obtain ⟨c, inside, byte⟩ := List.mem_flatMap.mp member
  rwa [← break_of_mem byte]

end TapeScript.Text
