import CfiSlack.Proofs.Histories
import CfiSlack.Route
import Mathlib.Data.List.Nodup

/-!
# Routes filed by length

Forbidden routes are stored goal first, in one group for each length, and are asked for and listed
farthest node first. Whatever is given and inserted, with a right or a wrong length, a route is found
exactly if it was given or inserted under its own length, and it is filed there and nowhere else. So the
groups can be counted, measured and listed one by one.
-/
namespace CfiSlack.ForbiddenRoutes

variable {f : ForbiddenRoutes} {r s : Route} {n : ℕ}

@[simp]
theorem routes_empty : empty.routes = [] := rfl

theorem maxLength_empty : empty.maxLength = 0 := rfl

theorem mem_routes : r ∈ f.routes ↔ r.reverse ∈ f.byLength.group r.length := by
  simp only [routes, List.mem_map, List.mem_flatMap, Prod.exists]
  constructor
  · rintro ⟨s, ⟨n, l, hrow, hs⟩, rfl⟩
    rw [← Table.group_of_mem hrow] at hs
    rw [List.reverse_reverse, List.length_reverse, f.length_eq n s hs]
    exact hs
  · intro hr
    cases hfind : f.byLength.find? r.length with
    | none => simp [Table.group, hfind] at hr
    | some l =>
      have hrow := Table.find?_eq_some.mp hfind
      rw [Table.group_of_mem hrow] at hr
      exact ⟨r.reverse, ⟨r.length, l, hrow, hr⟩, r.reverse_reverse⟩

theorem mem_group : s ∈ f.byLength.group n ↔ s.length = n ∧ s.reverse ∈ f.routes := by
  rw [mem_routes, List.reverse_reverse, List.length_reverse]
  constructor
  · intro hs
    have hlength := f.length_eq n s hs
    exact ⟨hlength, hlength ▸ hs⟩
  · rintro ⟨rfl, hs⟩
    exact hs

theorem containsReversed_iff : f.containsReversed s = true ↔ s.reverse ∈ f.routes := by
  rw [containsReversed, List.contains_iff_mem, mem_group]
  exact and_iff_right rfl

theorem contains_iff : f.contains r = true ↔ r ∈ f.routes := by
  rw [contains, containsReversed_iff, List.reverse_reverse]

/-! ### What a new route changes -/

theorem mem_add : s ∈ (f.add r).routes ↔ s = r ∨ s ∈ f.routes := by
  rw [mem_routes, mem_routes, add, Table.group_insert]
  split
  · next hlength => rw [List.mem_insert_iff, List.reverse_inj, hlength]
  · next hlength =>
    refine (or_iff_right ?_).symm
    rintro rfl
    exact hlength rfl

theorem mem_foldl_add (rs : List Route) : s ∈ (rs.foldl add f).routes ↔ s ∈ rs ∨ s ∈ f.routes := by
  induction rs generalizing f with
  | nil => simp
  | cons r rs ih => rw [List.foldl_cons, ih, mem_add, List.mem_cons, or_left_comm, or_assoc]

theorem mem_ofRoutes {rs : List Route} : r ∈ (ofRoutes rs).routes ↔ r ∈ rs := by
  rw [ofRoutes, mem_foldl_add, routes_empty]
  simp

theorem insert_of_ne (h : n ≠ r.length) :
    f.insert n r = (.error (.routeLength n r.length), f) := if_neg (Ne.symm h)

theorem insert_length (f : ForbiddenRoutes) (r : Route) :
    f.insert r.length r = (.ok (!f.contains r), f.add r) := if_pos rfl

/-- A wrong length keeps a route out. -/
theorem mem_insert :
    s ∈ (f.insert n r).2.routes ↔ s = r ∧ n = r.length ∨ s ∈ f.routes := by
  by_cases hn : n = r.length
  · subst hn
    rw [insert_length, mem_add]
    simp
  · rw [insert_of_ne hn]
    simp [hn]

/-! ### Counting, measuring and listing the groups -/

/-- Groups of different lengths have no route in common. -/
theorem nodup_routes (f : ForbiddenRoutes) : f.routes.Nodup := by
  refine List.Nodup.map List.reverse_injective (List.nodup_flatMap.mpr ⟨?_, ?_⟩)
  · rintro ⟨n, l⟩ hrow
    rw [← Table.group_of_mem hrow]
    exact f.nodup n
  · refine (List.pairwise_map.mp f.byLength.nodup).imp_of_mem ?_
    rintro ⟨n, l⟩ ⟨m, k⟩ hn hm hne s hl hk
    rw [← Table.group_of_mem hn] at hl
    rw [← Table.group_of_mem hm] at hk
    exact hne ((f.length_eq n s hl).symm.trans (f.length_eq m s hk))

theorem size_eq (f : ForbiddenRoutes) : f.size = f.routes.length := by
  rw [size, routes, List.length_map]
  induction f.byLength.rows with
  | nil => rfl
  | cons row rows ih => rw [List.foldr_cons, ih, List.flatMap_cons, List.length_append]

/-- A length has a group if it is the length of a route. -/
theorem mem_keys : n ∈ f.byLength.keys ↔ ∃ r ∈ f.routes, r.length = n := by
  constructor
  · intro hn
    obtain ⟨s, hs⟩ := List.exists_mem_of_ne_nil _ (f.ne_nil n hn)
    obtain ⟨hlength, hmem⟩ := mem_group.mp hs
    exact ⟨s.reverse, hmem, by rw [List.length_reverse, hlength]⟩
  · rintro ⟨r, hr, rfl⟩
    by_contra hkey
    have hnone : f.byLength.find? r.length = none := by simpa [Table.mem_keys] using hkey
    have hmem := mem_routes.mp hr
    rw [Table.group, hnone] at hmem
    simp at hmem

theorem length_le_maxLength (h : r ∈ f.routes) : r.length ≤ f.maxLength := by
  have hfold (ns : List ℕ) {k : ℕ} (hk : k ∈ ns) : k ≤ ns.foldr max 0 := by
    induction ns with
    | nil => simp at hk
    | cons m ns ih =>
      rcases List.mem_cons.mp hk with rfl | hk
      · exact le_max_left _ _
      · exact (ih hk).trans (le_max_right _ _)
  exact hfold _ (mem_keys.mpr ⟨r, h, rfl⟩)

/-- The greatest length is that of a route, unless there is none. -/
theorem maxLength_cases (f : ForbiddenRoutes) :
    f.routes = [] ∧ f.maxLength = 0 ∨ ∃ r ∈ f.routes, r.length = f.maxLength := by
  have hfold (ns : List ℕ) : ns = [] ∨ ns.foldr max 0 ∈ ns := by
    induction ns with
    | nil => exact Or.inl rfl
    | cons m ns ih =>
      refine Or.inr ?_
      rw [List.foldr_cons]
      rcases ih with rfl | hmem
      · simp
      · rcases max_choice m (ns.foldr max 0) with hmax | hmax
        · rw [hmax]
          exact List.mem_cons_self
        · rw [hmax]
          exact List.mem_cons_of_mem m hmem
  rcases hfold f.byLength.keys with hnone | hmax
  · refine Or.inl ⟨?_, by rw [maxLength, hnone, List.foldr_nil]⟩
    refine List.eq_nil_iff_forall_not_mem.mpr ?_
    intro r hr
    have hkey := mem_keys.mpr ⟨r, hr, rfl⟩
    rw [hnone] at hkey
    cases hkey
  · exact Or.inr (mem_keys.mp hmax)

theorem mem_ofLength : r ∈ f.ofLength n ↔ r ∈ f.routes ∧ r.length = n := by
  rw [ofLength, List.mem_mergeSort, List.mem_map]
  constructor
  · rintro ⟨s, hs, rfl⟩
    obtain ⟨hlength, hmem⟩ := mem_group.mp hs
    exact ⟨hmem, by rw [List.length_reverse, hlength]⟩
  · rintro ⟨hr, rfl⟩
    exact ⟨r.reverse, mem_routes.mp hr, r.reverse_reverse⟩

theorem nodup_ofLength (f : ForbiddenRoutes) (n : ℕ) : (f.ofLength n).Nodup :=
  (List.mergeSort_perm _ _).nodup_iff.mpr ((f.nodup n).map List.reverse_injective)

theorem mem_toList : r ∈ f.toList ↔ r ∈ f.routes := by
  simp only [toList, List.mem_flatMap, Ascending.mem_ofList, mem_ofLength]
  constructor
  · rintro ⟨n, -, hr, -⟩
    exact hr
  · intro hr
    exact ⟨r.length, mem_keys.mpr ⟨r, hr, rfl⟩, hr, rfl⟩

theorem nodup_toList (f : ForbiddenRoutes) : f.toList.Nodup := by
  refine List.nodup_flatMap.mpr ⟨fun n _ => f.nodup_ofLength n, ?_⟩
  refine (Ascending.nodup_ofList f.byLength.keys).imp ?_
  intro n m hne r hn hm
  exact hne ((mem_ofLength.mp hn).2.symm.trans (mem_ofLength.mp hm).2)

/-- The groups follow each other by length. -/
theorem pairwise_toList (f : ForbiddenRoutes) :
    f.toList.Pairwise fun r s => r.length ≤ s.length := by
  refine List.pairwise_flatMap.mpr ⟨?_, ?_⟩
  · intro n _
    refine List.pairwise_of_forall_mem_list ?_
    intro r hr s hs
    rw [(mem_ofLength.mp hr).2, (mem_ofLength.mp hs).2]
  · refine (Ascending.pairwise_ofList f.byLength.keys).imp ?_
    intro n m hlt r hr s hs
    rw [(mem_ofLength.mp hr).2, (mem_ofLength.mp hs).2]
    exact hlt.le

/-! ### Histories -/

/-- A route that is to be inserted under a declared length. -/
structure Insertion where
  declared : ℕ
  route : Route
  deriving DecidableEq, Repr

/-- The routes that are forbidden after some were given and others inserted, the oldest first. -/
def after (given : List Route) (insertions : List Insertion) : ForbiddenRoutes :=
  insertions.foldl (fun f i => (f.insert i.declared i.route).2) (ofRoutes given)

/-- A route was given, or inserted under its own length. -/
def Entered (given : List Route) (insertions : List Insertion) (r : Route) : Prop :=
  r ∈ given ∨ ⟨r.length, r⟩ ∈ insertions

variable {given : List Route} {insertions : List Insertion}

theorem mem_foldl_insert :
    r ∈ (insertions.foldl (fun f i => (f.insert i.declared i.route).2) f).routes ↔
      ⟨r.length, r⟩ ∈ insertions ∨ r ∈ f.routes := by
  induction insertions generalizing f with
  | nil => simp
  | cons i insertions ih =>
    obtain ⟨declared, route⟩ := i
    have hfirst : (⟨r.length, r⟩ : Insertion) = ⟨declared, route⟩ ↔
        r = route ∧ declared = route.length := by
      rw [Insertion.mk.injEq]
      constructor
      · rintro ⟨rfl, rfl⟩
        exact ⟨rfl, rfl⟩
      · rintro ⟨rfl, rfl⟩
        exact ⟨rfl, rfl⟩
    rw [List.foldl_cons, ih, mem_insert, List.mem_cons, hfirst, or_left_comm, or_assoc]

theorem mem_after : r ∈ (after given insertions).routes ↔ Entered given insertions r := by
  rw [after, mem_foldl_insert, mem_ofRoutes, or_comm]
  rfl

theorem size_eq_ncard {P : Route → Prop} (h : ∀ r, r ∈ f.routes ↔ P r) : f.size = {r | P r}.ncard := by
  rw [size_eq, length_eq_ncard f.nodup_routes h]

/-- Whatever was given and inserted before, exactly the routes that were entered are stored, each under
its own length and goal first, and found in either direction; a wrong length is refused and changes
nothing; an insertion answers whether its route was missing; and size, greatest length and listings are
those of the entered routes. -/
theorem filed_routes_exact (given : List Route) (insertions : List Insertion) :
    (∀ n s, s ∈ (after given insertions).byLength.group n ↔
      s.length = n ∧ Entered given insertions s.reverse) ∧
    (∀ r, (after given insertions).contains r = true ↔ Entered given insertions r) ∧
    (∀ r, (after given insertions).containsReversed r.reverse = true ↔
      Entered given insertions r) ∧
    (∀ n r, n ≠ r.length → (after given insertions).insert n r =
      (.error (.routeLength n r.length), after given insertions)) ∧
    (∀ r, ∃ new, ((after given insertions).insert r.length r).1 = .ok new ∧
      (new = true ↔ ¬ Entered given insertions r)) ∧
    (after given insertions).size = {r | Entered given insertions r}.ncard ∧
    (∀ r, Entered given insertions r → r.length ≤ (after given insertions).maxLength) ∧
    ((∀ r, ¬ Entered given insertions r) ∧ (after given insertions).maxLength = 0 ∨
      ∃ r, Entered given insertions r ∧ r.length = (after given insertions).maxLength) ∧
    (∀ r, r ∈ (after given insertions).toList ↔ Entered given insertions r) ∧
    (after given insertions).toList.Nodup ∧
    (after given insertions).toList.Pairwise fun r s => r.length ≤ s.length := by
  refine ⟨?_, ?_, ?_, ?_, ?_, size_eq_ncard fun r => mem_after, ?_, ?_, ?_, nodup_toList _,
    pairwise_toList _⟩
  · intro n s
    rw [mem_group, mem_after]
  · intro r
    rw [contains_iff, mem_after]
  · intro r
    rw [containsReversed_iff, List.reverse_reverse, mem_after]
  · intro n r hn
    exact insert_of_ne hn
  · intro r
    refine ⟨!(after given insertions).contains r, by rw [insert_length], ?_⟩
    rw [← mem_after, ← contains_iff, Bool.not_eq_true', Bool.not_eq_true]
  · intro r hr
    exact length_le_maxLength (mem_after.mpr hr)
  · simp only [← mem_after]
    refine (maxLength_cases _).imp_left ?_
    rintro ⟨hnone, hzero⟩
    exact ⟨by simp [hnone], hzero⟩
  · intro r
    rw [mem_toList, mem_after]

/-- The empty route, a route of one node, and a route that is given twice. -/
def mixedLengths : List Route :=
  [[.block 1, .sink], [], [.sink], [.block 1, .sink]]

/-- A new route, one that is known already, and one with a wrong length. -/
def laterRoutes : List Insertion :=
  [⟨2, [.block 2, .sink]⟩, ⟨2, [.block 1, .sink]⟩, ⟨5, [.block 3, .sink]⟩]

theorem filed_routes_exact_mixedLengths :
    Entered mixedLengths laterRoutes [] ∧
      (after mixedLengths laterRoutes).contains [.block 3, .sink] = false ∧
      5 ≠ [Node.block 3, .sink].length ∧
      (after mixedLengths laterRoutes).insert 5 [.block 3, .sink] =
        (.error (.routeLength 5 2), after mixedLengths laterRoutes) ∧
      Entered mixedLengths laterRoutes [.block 2, .sink] ∧
      [Node.block 2, .sink].length ≤ (after mixedLengths laterRoutes).maxLength := by
  obtain ⟨-, hcontains, -, hrefused, -, -, hmax, -⟩ := filed_routes_exact mixedLengths laterRoutes
  have hnew : Entered mixedLengths laterRoutes [.block 2, .sink] := Or.inr (by decide)
  have hwrong : 5 ≠ [Node.block 3, .sink].length := by decide
  refine ⟨Or.inl (by decide), ?_, hwrong, hrefused 5 _ hwrong, hnew, hmax _ hnew⟩
  rw [← Bool.not_eq_true, hcontains]
  rintro (hgiven | hinserted)
  · revert hgiven
    decide
  · revert hinserted
    decide

end CfiSlack.ForbiddenRoutes
