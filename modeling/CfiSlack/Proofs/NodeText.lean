import CfiSlack.Node
import CfiSlack.Proofs.Numerals

/-!
# Texts of nodes

Every node can be read back from its text. It is read as itself, save one kind of hub: a label counts
as an argument count only up to two digits, so that the hub of a hundred arguments or more is read as
the hub of that distance. Two such hubs have the same text, and no other two nodes have.
-/
namespace CfiSlack

namespace HubLabel

open Numeral

variable {cs : List Char} {label : HubLabel}

/-- The label that the text of a label stands for. -/
def asRead : HubLabel → HubLabel
  | .argCount n => if n < 100 then .argCount n else .distance (.finite n.toUInt64)
  | .distance d => .distance d
  | .functions => .functions

theorem asRead_argCount_of_lt {n : Int64} (h : n < 100) : (argCount n).asRead = .argCount n :=
  if_pos h

theorem asRead_argCount_of_le {n : Int64} (h : ¬ n < 100) :
    (argCount n).asRead = .distance (.finite n.toUInt64) :=
  if_neg h

theorem lt_hundred_iff {n : Int64} : n < 100 ↔ n.toInt < 100 := Int64.lt_iff_toInt_lt

theorem toNat_toUInt64 {n : Int64} (h : 0 ≤ n.toInt) : n.toUInt64.toNat = n.toInt.toNat := by
  have hvalue : n.toInt = n.toUInt64.toNat ∨ n.toInt < 0 := by
    have hmsb := BitVec.toInt_eq_toNat_cond n.toBitVec
    have hlt := n.toUInt64.toNat_lt
    change n.toInt = if 2 * n.toUInt64.toNat < 2 ^ 64 then (n.toUInt64.toNat : ℤ)
      else (n.toUInt64.toNat : ℤ) - (2 ^ 64 : ℕ) at hmsb
    split at hmsb
    · exact Or.inl hmsb
    · refine Or.inr ?_
      omega
  omega

theorem byteLength_eq_length (h : ∀ c ∈ cs, IsDigit c) :
    (cs.map Char.utf8Size).foldr (· + ·) 0 = cs.length := by
  induction cs with
  | nil => rfl
  | cons c cs ih =>
    have hbytes : c.utf8Size = 1 := by
      obtain ⟨d, hd, rfl⟩ := h c List.mem_cons_self
      interval_cases d <;> rfl
    rw [List.map_cons, List.foldr_cons, hbytes, ih fun c hc => h c (List.mem_cons_of_mem _ hc),
      List.length_cons, Nat.add_comm]

/-- Of digits alone, only their number decides what they stand for. -/
theorem ofChars?_of_digits (h : ∀ c ∈ cs, IsDigit c) :
    ofChars? cs =
      if cs.length ≤ 2 then
        (integer 10 argCountLimit cs).toOption.map fun n => .argCount (Int64.ofInt n)
      else (word? 10 cs).map fun d => .distance (.finite d) := by
  have hfunction : cs ≠ "function".toList := by
    rintro rfl
    exact (h 'u' (by decide)).ne (by decide) rfl
  have hinf : cs ≠ "inf".toList := by
    rintro rfl
    exact (h 'i' (by decide)).ne (by decide) rfl
  have hminus : cs.head? ≠ some '-' := by
    intro hhead
    exact (h '-' (List.mem_of_head? hhead)).ne (by decide) rfl
  rw [ofChars?, if_neg hfunction, if_neg hinf, byteLength_eq_length h]
  simp only [hminus, or_false]

theorem ofChars?_minus (cs : List Char) :
    ofChars? ('-' :: cs) =
      (integer 10 argCountLimit ('-' :: cs)).toOption.map fun n => .argCount (Int64.ofInt n) := by
  have hminus : ('-' :: cs).head? = some '-' := rfl
  rw [ofChars?, if_neg (by simp), if_neg (by simp), if_pos (Or.inr hminus)]

theorem chars_argCount_of_neg {n : Int64} (h : n.toInt < 0) :
    (argCount n).chars = '-' :: Nat.toDigits 10 n.toInt.natAbs :=
  if_pos h

theorem chars_argCount_of_nonneg {n : Int64} (h : 0 ≤ n.toInt) :
    (argCount n).chars = padded 2 (Nat.toDigits 10 n.toInt.toNat) :=
  if_neg (Int.not_lt.mpr h)

theorem chars_distance_finite (d : UInt64) :
    (distance (.finite d)).chars = padded 3 (Nat.toDigits 10 d.toNat) := rfl

theorem ofChars?_chars_distance (d : Distance) :
    ofChars? (distance d).chars = some (.distance d) := by
  cases d with
  | infinite => rfl
  | finite d =>
    have hlength : ¬ (padded 3 (Nat.toDigits 10 d.toNat)).length ≤ 2 := by
      rw [length_padded]
      omega
    rw [chars_distance_finite, ofChars?_of_digits fun c hc => isDigit_of_mem_padded (by omega) (by omega) hc,
      if_neg hlength, word?_padded (by omega) (by omega)]
    rfl

/-- From a hundred on, counts and distances are written alike. -/
theorem chars_argCount_of_large {n : Int64} (h : ¬ n < 100) :
    (argCount n).chars = (distance (.finite n.toUInt64)).chars := by
  rw [lt_hundred_iff] at h
  have hnonneg : 0 ≤ n.toInt := by omega
  have hlength : ¬ (Nat.toDigits 10 n.toInt.toNat).length ≤ 2 := by
    rw [Nat.length_toDigits_le_iff (by omega) (by omega)]
    omega
  rw [chars_argCount_of_nonneg hnonneg, chars_distance_finite, toNat_toUInt64 hnonneg,
    padded_of_le (by omega), padded_of_le (by omega)]

theorem ofChars?_chars_argCount {n : Int64} (h : n < 100) :
    ofChars? (argCount n).chars = some (.argCount n) := by
  have hlow := n.le_toInt
  rw [lt_hundred_iff] at h
  by_cases hneg : n.toInt < 0
  · have hlimit : n.toInt.natAbs ≤ argCountLimit := by
      unfold argCountLimit
      omega
    have hvalue : -(n.toInt.natAbs : ℤ) = n.toInt := by omega
    rw [chars_argCount_of_neg hneg, ofChars?_minus, integer_minus (by omega) (by omega) hlimit, hvalue]
    simp [Except.toOption]
  · have hlimit : n.toInt.toNat < argCountLimit := by
      unfold argCountLimit
      omega
    have hvalue : (n.toInt.toNat : ℤ) = n.toInt := by omega
    have hdigits : (Nat.toDigits 10 n.toInt.toNat).length ≤ 2 := by
      rw [Nat.length_toDigits_le_iff (by omega) (by omega)]
      omega
    have hlength : (padded 2 (Nat.toDigits 10 n.toInt.toNat)).length ≤ 2 := by
      rw [length_padded]
      omega
    rw [chars_argCount_of_nonneg (by omega),
      ofChars?_of_digits fun c hc => isDigit_of_mem_padded (by omega) (by omega) hc,
      if_pos hlength, integer_padded (by omega) (by omega) hlimit, hvalue]
    simp [Except.toOption]

theorem chars_asRead (label : HubLabel) : label.asRead.chars = label.chars := by
  cases label with
  | distance d => rfl
  | functions => rfl
  | argCount n =>
    by_cases h : n < 100
    · rw [asRead_argCount_of_lt h]
    · rw [asRead_argCount_of_le h, chars_argCount_of_large h]

theorem ofChars?_chars (label : HubLabel) : ofChars? label.chars = some label.asRead := by
  cases label with
  | distance d => exact ofChars?_chars_distance d
  | functions => rfl
  | argCount n =>
    by_cases h : n < 100
    · rw [asRead_argCount_of_lt h, ofChars?_chars_argCount h]
    · rw [asRead_argCount_of_le h, chars_argCount_of_large h, ofChars?_chars_distance]

theorem length_le_byteLength (cs : List Char) :
    cs.length ≤ (cs.map Char.utf8Size).foldr (· + ·) 0 := by
  induction cs with
  | nil => simp
  | cons c cs ih =>
    have hpos := c.utf8Size_pos
    simp only [List.map_cons, List.foldr_cons, List.length_cons]
    omega

/-- Two digits, or a minus sign, do not make a hundred. -/
theorem ofInt_lt_hundred {z : ℤ} (h : integer 10 argCountLimit cs = .ok z)
    (hshape : (cs.map Char.utf8Size).foldr (· + ·) 0 ≤ 2 ∨ cs.head? = some '-') :
    Int64.ofInt z < 100 := by
  obtain ⟨hlow, hpow, hhigh⟩ := integer_bounds (by omega) (by decide) h
  have hsmall : z < 100 := by
    rcases hshape with hbytes | hminus
    · have hlength := (length_le_byteLength cs).trans hbytes
      have hhundred : (10 : ℤ) ^ cs.length ≤ 10 ^ 2 := pow_le_pow_right₀ (by omega) hlength
      push_cast at hpow
      omega
    · obtain ⟨ds, rfl⟩ := List.head?_eq_some_iff.mp hminus
      have hzero := integer_le_zero h
      omega
  unfold argCountLimit at hlow hhigh
  rw [lt_hundred_iff, Int64.toInt_ofInt_of_le (by omega) (by omega)]
  exact hsmall

/-- A label that was read has no other reading. -/
theorem asRead_of_ofChars? (h : ofChars? cs = some label) : label.asRead = label := by
  unfold ofChars? at h
  split at h
  · cases h
    rfl
  · split at h
    · cases h
      rfl
    · split at h
      · next hshape =>
        obtain ⟨z, hz, rfl⟩ := Option.map_eq_some_iff.mp h
        have hread : integer 10 argCountLimit cs = .ok z := by
          cases hcs : integer 10 argCountLimit cs with
          | error e => simp [hcs, Except.toOption] at hz
          | ok y =>
            rw [hcs] at hz
            cases hz
            rfl
        exact asRead_argCount_of_lt (ofInt_lt_hundred hread hshape)
      · obtain ⟨d, -, rfl⟩ := Option.map_eq_some_iff.mp h
        rfl

theorem asRead_eq_self_iff : label.asRead = label ↔ ∀ n, label = .argCount n → n < 100 := by
  cases label with
  | distance d => simp [asRead]
  | functions => simp [asRead]
  | argCount n =>
    by_cases h : n < 100
    · simp [asRead, h]
    · simp [asRead, h]

end HubLabel

namespace Node

variable {n m : Node}

/-- The node that the text of a node stands for. -/
def asRead : Node → Node
  | .hub label => .hub label.asRead
  | n => n

theorem ofChars?_virtual (label : List Char) :
    ofChars? ('v' :: 'i' :: 'r' :: 't' :: 'u' :: 'a' :: 'l' :: label) =
      (HubLabel.ofChars? label).map .hub := by
  unfold ofChars?
  rw [if_neg (by simp), if_neg (by simp)]
  rfl

theorem ofChars?_hexadecimal (digits : List Char) :
    ofChars? ('0' :: 'x' :: digits) = (Numeral.word? 16 digits).map .block := by
  unfold ofChars?
  rw [if_neg (by simp), if_neg (by simp)]
  rfl

theorem chars_block (a : Address) : (block a).chars = '0' :: 'x' :: Nat.toDigits 16 a.toNat := rfl

theorem chars_hub (label : HubLabel) :
    (hub label).chars = 'v' :: 'i' :: 'r' :: 't' :: 'u' :: 'a' :: 'l' :: label.chars := rfl

theorem ofChars?_chars (n : Node) : ofChars? n.chars = some n.asRead := by
  cases n with
  | block a =>
    rw [chars_block, ofChars?_hexadecimal, Numeral.word?_toDigits (by omega) (by omega)]
    rfl
  | sink => rfl
  | anywhere => rfl
  | hub label =>
    rw [chars_hub, ofChars?_virtual, HubLabel.ofChars?_chars]
    rfl

theorem read_text (n : Node) : Node.read n.text = .ok n.asRead := by
  simp only [Node.read, text, String.toList_ofList, ofChars?_chars]

theorem text_asRead (n : Node) : n.asRead.text = n.text := by
  cases n with
  | hub label => rw [asRead, text, text, chars_hub, chars_hub, HubLabel.chars_asRead]
  | block | sink | anywhere => rfl

theorem text_eq_text_iff : n.text = m.text ↔ n.asRead = m.asRead := by
  constructor
  · intro h
    have hread := congrArg Node.read h
    rw [read_text, read_text] at hread
    exact Except.ok.inj hread
  · intro h
    rw [← text_asRead n, h, text_asRead]

theorem asRead_eq_self_iff :
    n.asRead = n ↔ ∀ count, n = .hub (.argCount count) → count < 100 := by
  cases n with
  | hub label => simpa [asRead] using HubLabel.asRead_eq_self_iff
  | block | sink | anywhere => simp [asRead]

/-- A node that was read has no other reading. -/
theorem asRead_of_ofChars? {cs : List Char} (h : ofChars? cs = some n) : n.asRead = n := by
  unfold ofChars? at h
  split at h
  · cases h
    rfl
  · split at h
    · cases h
      rfl
    · split at h
      · obtain ⟨a, -, rfl⟩ := Option.map_eq_some_iff.mp h
        rfl
      · obtain ⟨a, -, rfl⟩ := Option.map_eq_some_iff.mp h
        rfl
      · obtain ⟨label, hlabel, rfl⟩ := Option.map_eq_some_iff.mp h
        exact congrArg hub (HubLabel.asRead_of_ofChars? hlabel)
      · cases h

/-- A node is read back from its text unless it is the hub of a hundred arguments or more; such a hub
is read as the hub of that distance. Nodes share a text just if they are read as the same node. -/
theorem text_form_exact (n m : Node) :
    Node.read n.text = .ok n.asRead ∧
    (Node.read n.text = .ok n ↔ ∀ count, n = .hub (.argCount count) → count < 100) ∧
    (n.text = m.text ↔ n.asRead = m.asRead) := by
  refine ⟨read_text n, ?_, text_eq_text_iff⟩
  rw [read_text, Except.ok.injEq, asRead_eq_self_iff]

theorem text_form_exact_hundred :
    Node.read (Node.hub (.argCount 100)).text = .ok (.hub (.distance (.finite 100))) ∧
    ¬ Node.read (Node.hub (.argCount 100)).text = .ok (.hub (.argCount 100)) ∧
    (Node.hub (.argCount 100)).text = (Node.hub (.distance (.finite 100))).text := by
  obtain ⟨hread, hself, hshared⟩ :=
    text_form_exact (.hub (.argCount 100)) (.hub (.distance (.finite 100)))
  refine ⟨hread, ?_, hshared.mpr rfl⟩
  rw [hself]
  intro h
  exact absurd (h 100 rfl) (by decide)

end Node
end CfiSlack
