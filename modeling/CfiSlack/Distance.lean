import CfiSlack.Ascending
import CfiSlack.Text.Numeral

/-!
# Distances

A distance to the sink is a 64-bit word or infinite. Infinity lies beyond every finite distance,
and a sum of words never wraps: it stops at the largest word.
-/
namespace CfiSlack

inductive Distance where
  | finite (d : UInt64)
  | infinite
  deriving DecidableEq, Repr

namespace Distance

def zero : Distance := .finite 0

def isFinite : Distance → Bool
  | .finite _ => true
  | .infinite => false

def finite? : Distance → Option UInt64
  | .finite d => some d
  | .infinite => none

def toFloat : Distance → Float
  | .finite d => d.toFloat
  | .infinite => 1.0 / 0.0

/-- Position in the order of distances. -/
def rank : Distance → Nat
  | .finite d => d.toNat
  | .infinite => UInt64.size

instance : LE Distance := ⟨fun a b => a.rank ≤ b.rank⟩
instance : LT Distance := ⟨fun a b => a.rank < b.rank⟩
instance : DecidableLE Distance := fun a b => inferInstanceAs (Decidable (a.rank ≤ b.rank))
instance : DecidableLT Distance := fun a b => inferInstanceAs (Decidable (a.rank < b.rank))

theorem rank_lt (a : Distance) : a.rank < UInt64.size + 1 := by
  cases a with
  | finite d => exact Nat.lt_succ_of_lt d.toNat_lt
  | infinite => exact Nat.lt_succ_self _

theorem rank_inj {a b : Distance} (h : a.rank = b.rank) : a = b := by
  cases a with
  | finite d =>
    cases b with
    | finite e => exact congrArg finite (UInt64.toNat_inj.1 h)
    | infinite => exact absurd h (Nat.ne_of_lt d.toNat_lt)
  | infinite =>
    cases b with
    | finite e => exact absurd h.symm (Nat.ne_of_lt e.toNat_lt)
    | infinite => rfl

instance : Std.IsLinearOrder Distance :=
  Ascending.isLinearOrder_of_rank rank (fun _ _ => Iff.rfl) fun _ _ => rank_inj

instance : Std.LawfulOrderLT Distance where
  lt_iff _ _ := Nat.lt_iff_le_and_not_ge

/-- The word nearest to a number: numbers beyond the largest word stop there. -/
def capped (n : Nat) : UInt64 := UInt64.ofNat (min (UInt64.size - 1) n)

/-- The smallest of a list of distances, infinite when there is none. -/
def least (ds : List Distance) : Distance :=
  ds.foldr (fun a b => if a ≤ b then a else b) .infinite

theorem least_le {ds : List Distance} {a : Distance} (h : a ∈ ds) : least ds ≤ a := by
  induction ds with
  | nil => simp at h
  | cons b ds ih =>
    change (if b ≤ least ds then b else least ds) ≤ a
    split
    · next hb =>
      rcases List.mem_cons.1 h with rfl | h
      · exact Std.le_refl _
      · exact Std.le_trans hb (ih h)
    · next hb =>
      rcases List.mem_cons.1 h with rfl | h
      · exact Std.le_of_lt (Std.not_le.1 hb)
      · exact ih h

def text : Distance → String
  | .finite d => String.ofList (Numeral.decimal d.toNat)
  | .infinite => "inf"

end Distance
end CfiSlack
