import TinyArm.Text.Hex

/-!
# UTF-8

`encode` writes each character in its one to four bytes. `decode` is strict: it refuses over-long forms, surrogates and
codes beyond the last plane, and says where the first offending sequence lies (`Fault`). It reads one byte at a time; a
`Pending` sequence remembers what its next byte may be.

* `decode_encode`: the bytes of a text are read back to it.
-/

namespace TinyArm.Text.Utf8

/-- The bytes of a text. -/
def encode (cs : List Char) : List UInt8 := cs.flatMap String.utf8EncodeChar

/-- Why bytes are not UTF-8. -/
inductive Reason where
  /-- A byte that starts no character. -/
  | start
  /-- A byte that does not continue the character before it. -/
  | continuation
  /-- The data ends inside a character. -/
  | ending
  deriving DecidableEq

/-- The wording of a reason. -/
def Reason.message : Reason → String
  | start => "invalid start byte"
  | continuation => "invalid continuation byte"
  | ending => "unexpected end of data"

/-- The first sequence of bytes that is not UTF-8: its first byte, where it starts, how many bytes of it were good. -/
structure Fault where
  reason : Reason
  first : UInt8
  position : Nat
  length : Nat
  deriving DecidableEq

/-- The wording of a fault. A single byte is shown with its position, several by the range of their positions. -/
def Fault.message (f : Fault) : String :=
  let place :=
    if f.length = 1 then "byte 0x" ++ hex 2 f.first.toNat ++ " in position " ++ toString f.position
    else "bytes in position " ++ toString f.position ++ "-" ++ toString (f.position + f.length - 1)
  "'utf-8' codec can't decode " ++ place ++ ": " ++ f.reason.message

/-- A sequence of which some bytes have been read. -/
structure Pending where
  /-- The first byte of the sequence. -/
  first : UInt8
  /-- How many bytes have been read. -/
  length : Nat
  /-- How many bytes are missing beyond the next one. -/
  missing : Nat
  /-- The least value of the next byte. -/
  low : Nat
  /-- The greatest value of the next byte. -/
  high : Nat
  /-- The bits of the character read so far. -/
  code : Nat

/-- The sequence that a first byte beyond ASCII opens. -/
def lead (b : UInt8) : Option Pending :=
  let n := b.toNat
  if n < 0xC2 then none
  else if n < 0xE0 then some ⟨b, 1, 0, 0x80, 0xBF, n - 0xC0⟩
  else if n = 0xE0 then some ⟨b, 1, 1, 0xA0, 0xBF, 0⟩
  else if n = 0xED then some ⟨b, 1, 1, 0x80, 0x9F, 0xD⟩
  else if n < 0xF0 then some ⟨b, 1, 1, 0x80, 0xBF, n - 0xE0⟩
  else if n = 0xF0 then some ⟨b, 1, 2, 0x90, 0xBF, 0⟩
  else if n < 0xF4 then some ⟨b, 1, 2, 0x80, 0xBF, n - 0xF0⟩
  else if n = 0xF4 then some ⟨b, 1, 2, 0x80, 0x8F, 4⟩
  else none

/-- Reads the bytes from position `pos` on, the sequence `p` being open. -/
def decodeFrom (pos : Nat) : Option Pending → List UInt8 → Except Fault (List Char)
  | none, [] => .ok []
  | some p, [] => .error ⟨.ending, p.first, pos - p.length, p.length⟩
  | none, b :: bs =>
    if b.toNat < 0x80 then (decodeFrom (pos + 1) none bs).map (Char.ofNat b.toNat :: ·)
    else
      match lead b with
      | none => .error ⟨.start, b, pos, 1⟩
      | some p => decodeFrom (pos + 1) (some p) bs
  | some p, b :: bs =>
    let n := b.toNat
    if p.low ≤ n ∧ n ≤ p.high then
      let code := p.code * 64 + (n - 0x80)
      match p.missing with
      | 0 => (decodeFrom (pos + 1) none bs).map (Char.ofNat code :: ·)
      | m + 1 => decodeFrom (pos + 1) (some ⟨p.first, p.length + 1, m, 0x80, 0xBF, code⟩) bs
    else .error ⟨.continuation, p.first, pos - p.length, p.length⟩

/-- The text that bytes encode, or the first fault in them. -/
def decode (bs : List UInt8) : Except Fault (List Char) := decodeFrom 0 none bs

/-! ## What is encoded is decoded -/

section RoundTrip

variable {pos : Nat} {bs : List UInt8}

theorem toNat_ofNat {n : Nat} (h : n < 256) : (UInt8.ofNat n).toNat = n := UInt8.toNat_ofNat_of_lt' h

theorem decodeFrom_ascii {n : Nat} (h : n < 0x80) :
    decodeFrom pos none (UInt8.ofNat n :: bs) = (decodeFrom (pos + 1) none bs).map (Char.ofNat n :: ·) := by
  have hn : (UInt8.ofNat n).toNat = n := toNat_ofNat (by omega)
  rw [decodeFrom, hn, if_pos h]

theorem decodeFrom_lead {n : Nat} (h : 0x80 ≤ n) (hn : n < 256) {p : Pending} (hp : lead (UInt8.ofNat n) = some p) :
    decodeFrom pos none (UInt8.ofNat n :: bs) = decodeFrom (pos + 1) (some p) bs := by
  have hn : (UInt8.ofNat n).toNat = n := toNat_ofNat hn
  rw [decodeFrom, hn, if_neg (by omega), hp]

/-- A byte in the range of an open sequence goes on with it, or is its last. -/
theorem decodeFrom_pending {first : UInt8} {length missing low high code x : Nat} (hl : low ≤ x + 0x80)
    (hh : x + 0x80 ≤ high) (hx : x < 64) :
    decodeFrom pos (some ⟨first, length, missing, low, high, code⟩) (UInt8.ofNat (x + 0x80) :: bs) =
      match missing with
      | 0 => (decodeFrom (pos + 1) none bs).map (Char.ofNat (code * 64 + x) :: ·)
      | m + 1 => decodeFrom (pos + 1) (some ⟨first, length + 1, m, 0x80, 0xBF, code * 64 + x⟩) bs := by
  have hn : (UInt8.ofNat (x + 0x80)).toNat = x + 0x80 := toNat_ofNat (by omega)
  rw [decodeFrom, hn, if_pos ⟨hl, hh⟩, Nat.add_sub_cancel]

/-- The first byte of two. -/
theorem lead_two {a : Nat} (h : 2 ≤ a) (ha : a < 32) :
    lead (UInt8.ofNat (a + 0xC0)) = some ⟨UInt8.ofNat (a + 0xC0), 1, 0, 0x80, 0xBF, a⟩ := by
  have hn : (UInt8.ofNat (a + 0xC0)).toNat = a + 0xC0 := toNat_ofNat (by omega)
  simp only [lead, hn]
  rw [if_neg (by omega), if_pos (by omega), Nat.add_sub_cancel]

/-- The first byte of three: over-long forms and surrogates are kept out by the range of the second. -/
theorem lead_three {a : Nat} (ha : a < 16) : ∃ low high,
    lead (UInt8.ofNat (a + 0xE0)) = some ⟨UInt8.ofNat (a + 0xE0), 1, 1, low, high, a⟩ ∧
      low = (if a = 0 then 0xA0 else 0x80) ∧ high = if a = 0xD then 0x9F else 0xBF := by
  have hn : (UInt8.ofNat (a + 0xE0)).toNat = a + 0xE0 := toNat_ofNat (by omega)
  simp only [lead, hn]
  rw [if_neg (by omega), if_neg (by omega)]
  by_cases h0 : a = 0
  · subst h0
    exact ⟨0xA0, 0xBF, rfl, rfl, rfl⟩
  · rw [if_neg (by omega)]
    by_cases hD : a = 0xD
    · subst hD
      exact ⟨0x80, 0x9F, rfl, rfl, rfl⟩
    · rw [if_neg (by omega), if_pos (by omega), Nat.add_sub_cancel]
      exact ⟨0x80, 0xBF, rfl, (if_neg h0).symm, (if_neg hD).symm⟩

/-- The first byte of four: over-long forms and codes beyond the last plane are kept out by the range of the second. -/
theorem lead_four {a : Nat} (ha : a < 5) : ∃ low high,
    lead (UInt8.ofNat (a + 0xF0)) = some ⟨UInt8.ofNat (a + 0xF0), 1, 2, low, high, a⟩ ∧
      low = (if a = 0 then 0x90 else 0x80) ∧ high = if a = 4 then 0x8F else 0xBF := by
  have hn : (UInt8.ofNat (a + 0xF0)).toNat = a + 0xF0 := toNat_ofNat (by omega)
  simp only [lead, hn]
  rw [if_neg (by omega), if_neg (by omega), if_neg (by omega), if_neg (by omega), if_neg (by omega)]
  by_cases h0 : a = 0
  · subst h0
    exact ⟨0x90, 0xBF, rfl, rfl, rfl⟩
  · rw [if_neg (by omega)]
    by_cases h4 : a = 4
    · subst h4
      exact ⟨0x80, 0x8F, rfl, rfl, rfl⟩
    · rw [if_pos (by omega), Nat.add_sub_cancel]
      exact ⟨0x80, 0xBF, rfl, (if_neg h0).symm, (if_neg h4).symm⟩

/-- The bytes of a character are read back to it. -/
theorem decodeFrom_encodeChar (pos : Nat) (c : Char) (bs : List UInt8) :
    ∃ pos', decodeFrom pos none (String.utf8EncodeChar c ++ bs) = (decodeFrom pos' none bs).map (c :: ·) := by
  have hc : Char.ofNat c.val.toNat = c := Char.ofNat_toNat c
  have hv : c.val.toNat < 0xD800 ∨ 0xDFFF < c.val.toNat ∧ c.val.toNat < 0x110000 := c.valid
  unfold String.utf8EncodeChar
  generalize c.val.toNat = v at hc hv
  simp only
  split
  · exact ⟨pos + 1, by rw [List.singleton_append, decodeFrom_ascii (by omega), hc]⟩
  split
  · have hlead := lead_two (a := v / 64 % 32) (by omega) (by omega)
    have hcode : v / 64 % 32 * 64 + v % 64 = v := by omega
    refine ⟨pos + 2, ?_⟩
    rw [List.cons_append, List.singleton_append, decodeFrom_lead (by omega) (by omega) hlead,
      decodeFrom_pending (by omega) (by omega) (by omega)]
    simp only [hcode, hc]
  split
  · obtain ⟨low, high, hlead, hlow, hhigh⟩ := lead_three (a := v / 4096 % 16) (by omega)
    have hcode : (v / 4096 % 16 * 64 + v / 64 % 64) * 64 + v % 64 = v := by omega
    refine ⟨pos + 3, ?_⟩
    rw [List.cons_append, List.cons_append, List.singleton_append, decodeFrom_lead (by omega) (by omega) hlead,
      decodeFrom_pending (by split at hlow <;> omega) (by split at hhigh <;> omega) (by omega)]
    simp only
    rw [decodeFrom_pending (by omega) (by omega) (by omega)]
    simp only [hcode, hc]
  · obtain ⟨low, high, hlead, hlow, hhigh⟩ := lead_four (a := v / 262144 % 8) (by omega)
    have hcode : ((v / 262144 % 8 * 64 + v / 4096 % 64) * 64 + v / 64 % 64) * 64 + v % 64 = v := by omega
    refine ⟨pos + 4, ?_⟩
    rw [List.cons_append, List.cons_append, List.cons_append, List.singleton_append,
      decodeFrom_lead (by omega) (by omega) hlead,
      decodeFrom_pending (by split at hlow <;> omega) (by split at hhigh <;> omega) (by omega)]
    simp only
    rw [decodeFrom_pending (by omega) (by omega) (by omega)]
    simp only
    rw [decodeFrom_pending (by omega) (by omega) (by omega)]
    simp only [hcode, hc]

theorem decodeFrom_encode (pos : Nat) (cs : List Char) : decodeFrom pos none (encode cs) = .ok cs := by
  induction cs generalizing pos with
  | nil => rfl
  | cons c cs ih =>
    obtain ⟨pos', h⟩ := decodeFrom_encodeChar pos c (encode cs)
    rw [encode, List.flatMap_cons, ← encode, h, ih]
    rfl

/-- **What is encoded is decoded.** -/
theorem decode_encode (cs : List Char) : decode (encode cs) = .ok cs := decodeFrom_encode 0 cs

end RoundTrip

end TinyArm.Text.Utf8
