import CfiSlack.Proofs.Fallible
import CfiSlack.Text.Numeral

/-!
# Numerals that were written

A number written in a base up to sixteen is read as that number, also behind zeros, if it lies below
the limit. In the other direction, what is read from few digits is small.
-/
namespace CfiSlack.Numeral

variable {base limit acc n : ℕ} {c : Char} {cs : List Char}

/-- A character that a number is written with. -/
def IsDigit (c : Char) : Prop := ∃ d < 16, c = Nat.digitChar d

theorem IsDigit.ne {other : Char} (h : IsDigit c)
    (hother : ∀ d < 16, Nat.digitChar d ≠ other) : c ≠ other := by
  obtain ⟨d, hd, rfl⟩ := h
  exact hother d hd

theorem isDigit_zero : IsDigit '0' := ⟨0, by omega, rfl⟩

theorem isDigit_of_mem_toDigits (hbase : 1 < base) (hbase' : base ≤ 16)
    (h : c ∈ Nat.toDigits base n) : IsDigit c := by
  induction n using Nat.strongRecOn with
  | ind n ih =>
    rw [Nat.toDigits_eq_if hbase] at h
    split at h
    · exact ⟨n, by omega, List.mem_singleton.mp h⟩
    · next hn =>
      rcases List.mem_append.mp h with h | h
      · exact ih (n / base) (Nat.div_lt_self (by omega) hbase) h
      · have hmod : n % base < base := Nat.mod_lt _ (by omega)
        exact ⟨n % base, by omega, List.mem_singleton.mp h⟩

theorem isDigit_of_mem_padded {width : ℕ} (hbase : 1 < base) (hbase' : base ≤ 16)
    (h : c ∈ padded width (Nat.toDigits base n)) : IsDigit c := by
  rcases List.mem_append.mp h with h | h
  · rw [List.eq_of_mem_replicate h]
    exact isDigit_zero
  · exact isDigit_of_mem_toDigits hbase hbase' h

theorem length_padded (width : ℕ) (cs : List Char) :
    (padded width cs).length = max width cs.length := by
  simp only [padded, List.length_append, List.length_replicate]
  omega

theorem padded_of_le {width : ℕ} (h : width ≤ cs.length) : padded width cs = cs := by
  simp [padded, Nat.sub_eq_zero_of_le h]

theorem padded_ne_nil (width : ℕ) : padded width (Nat.toDigits base n) ≠ [] := by
  intro h
  have hlength := congrArg List.length h
  have hpos := Nat.length_toDigits_pos (b := base) (n := n)
  rw [length_padded] at hlength
  simp only [List.length_nil] at hlength
  omega

theorem digit?_digitChar {d : ℕ} (hd : d < base) (hbase : base ≤ 16) :
    digit? base (Nat.digitChar d) = some d := by
  have hd' : d < 16 := by omega
  interval_cases d <;> simpa [digit?, Nat.digitChar] using hd

theorem digits_append (ds : List Char) :
    digits base limit acc (cs ++ ds) = (digits base limit acc cs).bind (digits base limit · ds) := by
  induction cs generalizing acc with
  | nil => rfl
  | cons c cs ih =>
    simp only [List.cons_append, digits]
    cases digit? base c with
    | none => rfl
    | some d =>
      simp only
      split
      · exact ih
      · rfl

theorem digits_toDigits (hbase : 1 < base) (hbase' : base ≤ 16) (h : n < limit) :
    digits base limit 0 (Nat.toDigits base n) = .ok n := by
  induction n using Nat.strongRecOn with
  | ind n ih =>
    rw [Nat.toDigits_eq_if hbase]
    split
    · next hn => simp [digits, digit?_digitChar hn hbase', h]
    · next hn =>
      have hless : n / base < n := Nat.div_lt_self (by omega) hbase
      have hdigit := digit?_digitChar (Nat.mod_lt n (by omega : 0 < base)) hbase'
      have hvalue : n / base * base + n % base = n := Nat.div_add_mod' n base
      rw [digits_append, ih (n / base) hless (by omega)]
      simp [Except.bind, digits, hdigit, hvalue, h]

theorem digits_zeros (hbase : 1 < base) (hlimit : 0 < limit) (count : ℕ) :
    digits base limit 0 (List.replicate count '0' ++ cs) = digits base limit 0 cs := by
  have hdigit : digit? base '0' = some 0 := by simpa [digit?] using Nat.zero_lt_of_lt hbase
  induction count with
  | zero => rfl
  | succ count ih => simp [List.replicate_succ, digits, hdigit, hlimit, ih]

theorem digits_padded (hbase : 1 < base) (hbase' : base ≤ 16) (h : n < limit) (width : ℕ) :
    digits base limit 0 (padded width (Nat.toDigits base n)) = .ok n := by
  rw [padded, digits_zeros hbase (by omega), digits_toDigits hbase hbase' h]

theorem natural_eq_digits (hne : cs ≠ []) (h : ∀ c ∈ cs, IsDigit c) :
    natural base limit cs = digits base limit 0 cs := by
  cases cs with
  | nil => exact absurd rfl hne
  | cons c cs =>
    have hplus : c ≠ '+' := (h c List.mem_cons_self).ne (by decide)
    unfold natural
    split <;> simp_all

theorem natural_padded (hbase : 1 < base) (hbase' : base ≤ 16) (h : n < limit) (width : ℕ) :
    natural base limit (padded width (Nat.toDigits base n)) = .ok n := by
  rw [natural_eq_digits (padded_ne_nil width) fun c hc => isDigit_of_mem_padded hbase hbase' hc,
    digits_padded hbase hbase' h]

theorem word?_padded (hbase : 1 < base) (hbase' : base ≤ 16) (width : ℕ) (d : UInt64) :
    word? base (padded width (Nat.toDigits base d.toNat)) = some d := by
  rw [word?, word, natural_padded hbase hbase' d.toNat_lt]
  simp [Except.map, Except.toOption]

theorem word?_toDigits (hbase : 1 < base) (hbase' : base ≤ 16) (d : UInt64) :
    word? base (Nat.toDigits base d.toNat) = some d := by
  simpa [padded] using word?_padded hbase hbase' 0 d

theorem integer_padded (hbase : 1 < base) (hbase' : base ≤ 16) (h : n < limit) (width : ℕ) :
    integer base limit (padded width (Nat.toDigits base n)) = .ok n := by
  have hnatural := natural_padded hbase hbase' h width
  have hminus : ∀ c ∈ padded width (Nat.toDigits base n), c ≠ '-' := fun c hc =>
    (isDigit_of_mem_padded hbase hbase' hc).ne (by decide)
  unfold integer
  split
  · next c cs hcs => exact absurd rfl (hminus '-' (by simp [hcs]))
  · rw [hnatural]
    rfl

theorem integer_minus (hbase : 1 < base) (hbase' : base ≤ 16) (h : n ≤ limit) :
    integer base limit ('-' :: Nat.toDigits base n) = .ok (-(n : ℤ)) := by
  have hdigits := digits_toDigits hbase hbase' (Nat.lt_succ_of_le h)
  cases hcs : Nat.toDigits base n with
  | nil => exact absurd hcs Nat.toDigits_ne_nil
  | cons c cs =>
    rw [hcs] at hdigits
    simp [integer, hdigits, Except.map]

theorem digit?_lt {d : ℕ} (h : digit? base c = some d) : d < base := by
  simp only [digit?, Option.filter_eq_some_iff] at h
  exact of_decide_eq_true h.2

theorem isDigit_of_digit? {d : ℕ} (h : digit? 10 c = some d) : c.isDigit = true := by
  have hd := digit?_lt h
  simp only [digit?, Option.filter_eq_some_iff] at h
  obtain ⟨hvalue, -⟩ := h
  split at hvalue
  · next hc => exact Char.isDigit_iff_toNat.mpr hc
  · -- the letters stand for ten and more
    split at hvalue
    · cases hvalue
      omega
    · split at hvalue
      · cases hvalue
        omega
      · cases hvalue

/-- A number in base ten is read from decimal digits only. -/
theorem isDigit_of_digits (h : digits 10 limit acc cs = .ok n) (hc : c ∈ cs) : c.isDigit = true := by
  induction cs generalizing acc with
  | nil => cases hc
  | cons d cs ih =>
    unfold digits at h
    split at h
    · cases h
    · next hd =>
      split at h
      · rcases List.mem_cons.mp hc with rfl | hc
        · exact isDigit_of_digit? hd
        · exact ih h hc
      · cases h

theorem digits_lt (h : digits base limit acc cs = .ok n) : n < (acc + 1) * base ^ cs.length := by
  induction cs generalizing acc with
  | nil =>
    cases h
    simp
  | cons c cs ih =>
    unfold digits at h
    split at h
    · cases h
    · next d hd =>
      split at h
      · have hdigit := digit?_lt hd
        calc n < (acc * base + d + 1) * base ^ cs.length := ih h
          _ ≤ (acc + 1) * base * base ^ cs.length := Nat.mul_le_mul_right _ (by linarith)
          _ = (acc + 1) * base ^ (c :: cs).length := by rw [List.length_cons]; ring
      · cases h

theorem digits_lt_limit (h : digits base limit acc cs = .ok n) (hacc : acc < limit) : n < limit := by
  induction cs generalizing acc with
  | nil =>
    cases h
    exact hacc
  | cons c cs ih =>
    unfold digits at h
    split at h
    · cases h
    · split at h
      · next hless => exact ih h hless
      · cases h

/-- A plus sign counts as a digit here, which only widens the bound. -/
theorem natural_lt (hbase : 0 < base) (hlimit : 0 < limit) (h : natural base limit cs = .ok n) :
    n < base ^ cs.length ∧ n < limit := by
  unfold natural at h
  split at h
  · cases h
  · cases h
  · next ds _ =>
    have hlength : base ^ ds.length ≤ base ^ ('+' :: ds).length :=
      Nat.pow_le_pow_right hbase (by simp)
    have hless := digits_lt h
    exact ⟨by omega, digits_lt_limit h hlimit⟩
  · have hless := digits_lt h
    exact ⟨by omega, digits_lt_limit h hlimit⟩

theorem integer_bounds {z : ℤ} (hbase : 0 < base) (hlimit : 0 < limit)
    (h : integer base limit cs = .ok z) : -(limit : ℤ) ≤ z ∧ z < base ^ cs.length ∧ z < limit := by
  unfold integer at h
  split at h
  · next c ds =>
    obtain ⟨n, hn, rfl⟩ := map_eq_ok.mp h
    have hless := digits_lt_limit hn (by omega)
    have hpow : 0 < (base : ℤ) ^ ('-' :: c :: ds).length := by positivity
    omega
  · obtain ⟨n, hn, rfl⟩ := map_eq_ok.mp h
    obtain ⟨hpow, hless⟩ := natural_lt hbase hlimit hn
    exact ⟨by omega, by exact_mod_cast hpow, by omega⟩

theorem integer_le_zero {z : ℤ} (h : integer base limit ('-' :: cs) = .ok z) : z ≤ 0 := by
  cases cs with
  | nil => simp [integer, natural, digits, digit?, Except.map] at h
  | cons c cs =>
    obtain ⟨n, -, rfl⟩ := map_eq_ok.mp h
    omega

end CfiSlack.Numeral
