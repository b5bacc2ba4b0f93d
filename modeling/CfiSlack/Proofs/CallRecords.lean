import CfiSlack.CallRecord
import CfiSlack.Proofs.Numerals

/-!
# Call records that were written

A record is read back from its text, whatever its instruction looks like: the marks between its parts are
found where they were written. Only the mark before the instruction can be mistaken, for the last one that
leaves an instruction behind it is taken; so it must not occur in the instruction again.
-/
namespace CfiSlack.CallRecord

variable {cs rest : List Char} {stop c : Char}

/-! ## Taking texts apart -/

theorem after?_eq_some {start : List Char} : after? start cs = some rest ↔ cs = start ++ rest := by
  unfold after?
  split
  · next h =>
    obtain ⟨more, rfl⟩ := List.isPrefixOf_iff_prefix.mp h
    simp
  · next h =>
    constructor
    · nofun
    · rintro rfl
      simp at h

theorem after?_append (start cs : List Char) : after? start (start ++ cs) = some cs :=
  after?_eq_some.mpr rfl

theorem after?_of_ne {first : Char} {start : List Char} (h : c ≠ first) :
    after? (first :: start) (c :: cs) = none := by
  refine Option.eq_none_iff_forall_ne_some.mpr ?_
  intro rest hrest
  exact h (List.cons_eq_cons.mp (after?_eq_some.mp hrest)).1

theorem after?_start_append (start more cs : List Char) :
    after? (start ++ more) cs = (after? start cs).bind (after? more) := by
  ext rest
  simp only [Option.bind_eq_some_iff, after?_eq_some, List.append_assoc, exists_eq_right]

theorem upTo?_eq (stop : Char) (cs : List Char) :
    upTo? stop cs =
      if cs.takeWhile (· ≠ stop) = [] then none
      else (after? [stop] (cs.dropWhile (· ≠ stop))).map (cs.takeWhile (· ≠ stop), ·) := by
  unfold upTo?
  split
  · next htake => rw [if_pos htake]
  · next hdrop _ => rw [hdrop, show after? [stop] [] = none from rfl, Option.map_none, ite_self]
  · next c rest hdrop htake =>
    have hc : c = stop := by
      have hhead := List.head?_dropWhile_not (fun c => decide (c ≠ stop)) cs
      rw [hdrop] at hhead
      simpa using hhead
    have hrest : after? [stop] (stop :: rest) = some rest := after?_append [stop] rest
    rw [if_neg htake, hdrop, hc, hrest, Option.map_some]

theorem upTo?_append {before : List Char} (hne : before ≠ []) (hstop : stop ∉ before)
    (rest : List Char) : upTo? stop (before ++ stop :: rest) = some (before, rest) := by
  have hall : ∀ c ∈ before, decide (c ≠ stop) = true := by
    intro c hc
    have hc : c ≠ stop := fun heq => hstop (heq ▸ hc)
    simpa using hc
  have htake : (before ++ stop :: rest).takeWhile (· ≠ stop) = before := by
    rw [List.takeWhile_append_of_pos hall]
    simp
  have hdrop : (before ++ stop :: rest).dropWhile (· ≠ stop) = [stop] ++ rest := by
    rw [List.dropWhile_append_of_pos hall]
    simp
  rw [upTo?_eq, htake, hdrop, after?_append, if_neg hne, Option.map_some]

theorem eq_of_upTo? {before : List Char} (h : upTo? stop cs = some (before, rest)) :
    cs = before ++ stop :: rest := by
  rw [upTo?_eq] at h
  split at h
  · cases h
  · obtain ⟨more, hmore, hparts⟩ := Option.map_eq_some_iff.mp h
    cases hparts
    have hsplit := List.takeWhile_append_dropWhile (p := fun c => decide (c ≠ stop)) (l := cs)
    rw [after?_eq_some.mp hmore] at hsplit
    exact hsplit.symm

theorem suffix_of_upTo? {before : List Char} (h : upTo? stop cs = some (before, rest)) : rest <:+ cs :=
  ⟨before ++ [stop], by simp [eq_of_upTo? h]⟩

theorem isInstruction_iff :
    isInstruction cs = true ↔ ∃ body, body ≠ [] ∧ '\n' ∉ body ∧ cs = body ++ ['"'] := by
  simp only [isInstruction, Bool.and_eq_true, decide_eq_true_eq, beq_iff_eq, List.getLast?_eq_some_iff,
    Bool.not_eq_true', List.contains_eq_mem, decide_eq_false_iff_not]
  constructor
  · rintro ⟨⟨hlength, body, rfl⟩, hline⟩
    refine ⟨body, ?_, ?_, rfl⟩
    · rintro rfl
      simp at hlength
    · intro hmem
      exact hline (List.mem_append_left _ hmem)
  · rintro ⟨body, hne, hline, rfl⟩
    have hpos := List.length_pos_iff.mpr hne
    refine ⟨⟨?_, body, rfl⟩, ?_⟩
    · rw [List.length_append, List.length_singleton]
      omega
    · simpa using hline

theorem isInstruction_cons (c : Char) (cs : List Char) :
    isInstruction (c :: cs) = true ↔ c ≠ '\n' ∧ (isInstruction cs = true ∨ cs = ['"']) := by
  simp only [isInstruction_iff]
  constructor
  · rintro ⟨body, hne, hline, hcs⟩
    obtain ⟨d, body, rfl⟩ := List.exists_cons_of_ne_nil hne
    obtain ⟨rfl, rfl⟩ := List.cons_eq_cons.mp hcs
    rw [List.mem_cons, not_or] at hline
    refine ⟨Ne.symm hline.1, ?_⟩
    cases body with
    | nil => exact .inr rfl
    | cons d body => exact .inl ⟨d :: body, List.cons_ne_nil d body, hline.2, rfl⟩
  · rintro ⟨hc, ⟨body, -, hline, rfl⟩ | rfl⟩
    · exact ⟨c :: body, List.cons_ne_nil c body, by simp [hc.symm, hline], rfl⟩
    · exact ⟨[c], List.cons_ne_nil c [], by simpa using hc.symm, rfl⟩

/-! ## Types and instruction -/

/-- The mark between the types and the instruction. -/
def mark : List Char := "< \"".toList

theorem typesFrom?_cons (c : Char) (cs : List Char) :
    typesFrom? (c :: cs) =
      (if c = '\'' then none else (typesFrom? cs).map (c :: ·)).or
        (if (after? mark (c :: cs)).any isInstruction = true then some [] else none) := by
  rw [typesFrom?, mark]
  by_cases hc : c = '\''
  · simp only [hc, if_true, Option.none_or]
  · cases h : typesFrom? cs
    · simp only [hc, if_false, Option.map_none, Option.none_or]
    · simp only [hc, if_false, Option.map_some, Option.some_or]

theorem typesFrom?_sound {types : List Char} (h : typesFrom? cs = some types) :
    ∃ rest, cs = types ++ mark ++ rest ∧ isInstruction rest = true := by
  induction cs generalizing types with
  | nil => cases h
  | cons c cs ih =>
    rw [typesFrom?_cons, Option.or_eq_some_iff] at h
    rcases h with hlater | ⟨-, hhere⟩
    · split at hlater
      · cases hlater
      · obtain ⟨more, hmore, rfl⟩ := Option.map_eq_some_iff.mp hlater
        obtain ⟨rest, rfl, hrest⟩ := ih hmore
        exact ⟨rest, rfl, hrest⟩
    · split at hhere
      · next hmark =>
        cases hhere
        obtain ⟨rest, hrest, hinstruction⟩ := (Option.any_eq_true _ _).mp hmark
        exact ⟨rest, after?_eq_some.mp hrest, hinstruction⟩
      · cases hhere

/-- Behind its first character the mark is not found again. -/
theorem typesFrom?_behind_mark {instruction : List Char} (hmark : ¬ mark <:+: instruction) :
    typesFrom? (" \"".toList ++ (instruction ++ ['"'])) = none := by
  refine Option.eq_none_iff_forall_ne_some.mpr ?_
  intro types h
  obtain ⟨rest, hcs, hrest⟩ := typesFrom?_sound h
  obtain ⟨body, -, -, rfl⟩ := isInstruction_iff.mp hrest
  have hcs : (" \"".toList ++ instruction) ++ ['"'] = (types ++ mark ++ body) ++ ['"'] := by
    simpa using hcs
  have hbody := List.append_cancel_right hcs
  -- the mark begins with neither of the two characters before the instruction
  rcases types with _ | ⟨a, _ | ⟨b, types⟩⟩
  · simp [mark] at hbody
  · simp [mark] at hbody
  · simp only [String.reduceToList, List.cons_append, List.nil_append, List.cons.injEq] at hbody
    exact hmark ⟨types, body, hbody.2.2.symm⟩

theorem typesFrom?_written {types instruction : List Char} (htypes : '\'' ∉ types)
    (hne : instruction ≠ []) (hline : '\n' ∉ instruction) (hmark : ¬ mark <:+: instruction) :
    typesFrom? (types ++ (mark ++ (instruction ++ ['"']))) = some types := by
  induction types with
  | nil =>
    have hfound : (after? mark (mark ++ (instruction ++ ['"']))).any isInstruction = true := by
      rw [after?_append]
      exact isInstruction_iff.mpr ⟨instruction, hne, hline, rfl⟩
    have hmarked : mark ++ (instruction ++ ['"']) = '<' :: (" \"".toList ++ (instruction ++ ['"'])) := rfl
    rw [hmarked] at hfound
    rw [List.nil_append, hmarked, typesFrom?_cons, typesFrom?_behind_mark hmark, if_pos hfound]
    rfl
  | cons c types ih =>
    rw [List.mem_cons, not_or] at htypes
    rw [List.cons_append, typesFrom?_cons, if_neg (Ne.symm htypes.1), ih htypes.2]
    rfl

theorem types?_written {types instruction : List Char} (hsome : types ≠ []) (htypes : '\'' ∉ types)
    (hne : instruction ≠ []) (hline : '\n' ∉ instruction) (hmark : ¬ mark <:+: instruction) :
    types? (types ++ (mark ++ (instruction ++ ['"']))) = some types := by
  obtain ⟨c, types, rfl⟩ := List.exists_cons_of_ne_nil hsome
  rw [List.mem_cons, not_or] at htypes
  rw [List.cons_append, types?, if_neg (Ne.symm htypes.1), typesFrom?_written htypes.2 hne hline hmark]
  rfl

/-! ## Call and place -/

/-- The text of a call behind its place. -/
def callChars (function types instruction : List Char) : List Char :=
  " '".toList ++ (function ++ '\'' :: (" >".toList ++ (types ++ (mark ++ (instruction ++ ['"'])))))

theorem call?_callChars {function types instruction : List Char} (hfunction : function ≠ [])
    (hquote : '\'' ∉ function) (hsome : types ≠ []) (htypes : '\'' ∉ types) (hne : instruction ≠ [])
    (hline : '\n' ∉ instruction) (hmark : ¬ mark <:+: instruction) :
    call? (callChars function types instruction) = some (function, types) := by
  simp only [call?, callChars, after?_append, upTo?_append hfunction hquote,
    types?_written hsome htypes hne hline hmark, bind, pure, Option.bind_some]

theorem annotated?_callChars (function types instruction : List Char) :
    annotated? (callChars function types instruction) = call? (callChars function types instruction) := by
  have hnote : after? " @[".toList (callChars function types instruction) = none := rfl
  rw [annotated?, hnote]

theorem call?_of_ne (h : c ≠ ' ') : call? (c :: cs) = none := by
  have hstart : after? " '".toList (c :: cs) = none := after?_of_ne h
  rw [call?, hstart]
  rfl

theorem annotated?_of_ne (h : c ≠ ' ') : annotated? (c :: cs) = none := by
  have hnote : after? " @[".toList (c :: cs) = none := after?_of_ne h
  rw [annotated?, hnote]
  exact call?_of_ne h

theorem number?_toDigits (n : UInt32) : number? (Nat.toDigits 10 n.toNat) = some n := by
  have hne : (Nat.toDigits 10 n.toNat).isEmpty = false := by
    simp [List.isEmpty_eq_false_iff, Nat.toDigits_ne_nil]
  have hdigits : Numeral.digits 10 UInt32.size 0 (Nat.toDigits 10 n.toNat) = .ok n.toNat :=
    Numeral.digits_toDigits (by omega) (by omega) n.toNat_lt
  rw [number?, hne, if_neg (by simp), hdigits]
  simp [Except.toOption]

theorem isDigit_of_number? {n : UInt32} (h : number? cs = some n) (hc : c ∈ cs) : c.isDigit = true := by
  unfold number? at h
  split at h
  · cases h
  · obtain ⟨m, hm, -⟩ := Option.map_eq_some_iff.mp h
    cases hdigits : Numeral.digits 10 UInt32.size 0 cs with
    | error e =>
      rw [hdigits] at hm
      cases hm
    | ok m => exact Numeral.isDigit_of_digits hdigits hc

theorem place?_written (p : Place) (hrest : rest.head?.all (!·.isDigit)) :
    place? (Nat.toDigits 10 p.line.toNat ++ ':' :: (Nat.toDigits 10 p.column.toNat ++ rest)) =
      some (p, rest) := by
  have hline : ':' ∉ Nat.toDigits 10 p.line.toNat := by
    intro h
    exact absurd (Nat.isDigit_of_mem_toDigits (by omega) (by omega) h) (by decide)
  have hcolumn : ∀ c ∈ Nat.toDigits 10 p.column.toNat, c.isDigit = true := fun c =>
    Nat.isDigit_of_mem_toDigits (by omega) (by omega)
  have hstop : rest.takeWhile (Char.isDigit ·) = [] ∧ rest.dropWhile (Char.isDigit ·) = rest := by
    cases rest with
    | nil => simp
    | cons c rest =>
      have hc : c.isDigit = false := by simpa using hrest
      simp [hc]
  simp only [place?, upTo?_append Nat.toDigits_ne_nil hline, List.takeWhile_append_of_pos hcolumn,
    List.dropWhile_append_of_pos hcolumn, hstop, List.append_nil, number?_toDigits, bind, pure,
    Option.bind_some]

/-- A line number `0` is not taken for a call without a place. -/
theorem unknown_of_toDigits (n : UInt32) (cs : List Char) :
    (after? ['0'] (Nat.toDigits 10 n.toNat ++ ':' :: cs)).bind annotated? = none := by
  obtain ⟨c, digits, hdigits⟩ := List.exists_cons_of_ne_nil (Nat.toDigits_ne_nil (b := 10) (n := n.toNat))
  rw [hdigits, List.cons_append]
  by_cases hc : c = '0'
  · subst hc
    rw [show '0' :: (digits ++ ':' :: cs) = ['0'] ++ (digits ++ ':' :: cs) from rfl, after?_append,
      Option.bind_some]
    cases digits with
    | nil => exact annotated?_of_ne (by decide)
    | cons d digits =>
      have hmem : d ∈ Nat.toDigits 10 n.toNat := by simp [hdigits]
      have hd := Nat.isDigit_of_mem_toDigits (by omega) (by omega) hmem
      refine annotated?_of_ne ?_
      rintro rfl
      exact absurd hd (by decide)
  · rw [after?_of_ne hc, Option.bind_none]

/-! ## Records -/

/-- A part of a record: a text that is not empty and has none of the characters that end it. -/
structure IsPart (stops cs : List Char) : Prop where
  ne_nil : cs ≠ []
  notMem : ∀ stop ∈ stops, stop ∉ cs

/-- A record that can be written with an instruction. -/
structure Writable (r : CallRecord) (instruction : List Char) : Prop where
  file : IsPart [':', '\n'] r.file.toList
  function : IsPart ['\'', '\n'] r.function.toList
  types_ne : r.types ≠ []
  types : ∀ t ∈ r.types, IsPart [' ', '\'', '\n'] t.toList
  text : IsPart ['\n'] instruction
  unmarked : ¬ mark <:+: instruction

instance (stops cs : List Char) : Decidable (IsPart stops cs) :=
  decidable_of_iff (cs ≠ [] ∧ (stops.all fun stop => decide (stop ∉ cs)) = true) (by
    simp only [List.all_eq_true, decide_eq_true_eq]
    exact ⟨fun h => ⟨h.1, h.2⟩, fun h => ⟨h.1, h.2⟩⟩)

instance (r : CallRecord) (instruction : List Char) : Decidable (Writable r instruction) :=
  decidable_of_iff
    (IsPart [':', '\n'] r.file.toList ∧ IsPart ['\'', '\n'] r.function.toList ∧ r.types ≠ [] ∧
      (∀ t ∈ r.types, IsPart [' ', '\'', '\n'] t.toList) ∧ IsPart ['\n'] instruction ∧
      ¬ mark <:+: instruction)
    ⟨fun ⟨h₁, h₂, h₃, h₄, h₅, h₆⟩ => ⟨h₁, h₂, h₃, h₄, h₅, h₆⟩,
      fun ⟨h₁, h₂, h₃, h₄, h₅, h₆⟩ => ⟨h₁, h₂, h₃, h₄, h₅, h₆⟩⟩

def placeChars : Option Place → List Char
  | none => ['0']
  | some p => Nat.toDigits 10 p.line.toNat ++ ':' :: Nat.toDigits 10 p.column.toNat

/-- The text of a record. -/
def chars (r : CallRecord) (instruction : List Char) : List Char :=
  r.file.toList ++ ':' :: (placeChars r.place ++
    callChars r.function.toList ([' '].intercalate (r.types.map String.toList)) instruction)

/-- The record with the spelling of the type tables. -/
def respelled (r : CallRecord) : CallRecord := { r with types := r.types.map typeName }

theorem notMem_intercalate {parts : List (List Char)} (hstop : stop ≠ c)
    (h : ∀ part ∈ parts, stop ∉ part) : stop ∉ [c].intercalate parts := by
  induction parts with
  | nil => simp
  | cons part parts ih =>
    have hpart := h part List.mem_cons_self
    cases parts with
    | nil => simpa using hpart
    | cons next parts =>
      have hrest := ih fun p hp => h p (List.mem_cons_of_mem part hp)
      simp only [List.intercalate_cons_cons, List.mem_append, List.mem_singleton, not_or]
      exact ⟨⟨hpart, hstop⟩, hrest⟩

namespace Writable

variable {r : CallRecord} {instruction : List Char}

theorem call (h : Writable r instruction) :
    annotated? (callChars r.function.toList ([' '].intercalate (r.types.map String.toList)) instruction) =
      some (r.function.toList, [' '].intercalate (r.types.map String.toList)) := by
  have hquote : '\'' ∉ [' '].intercalate (r.types.map String.toList) := by
    refine notMem_intercalate (by decide) ?_
    intro part hpart
    obtain ⟨t, ht, rfl⟩ := List.mem_map.mp hpart
    exact (h.types t ht).notMem '\'' (by simp)
  have hsome : [' '].intercalate (r.types.map String.toList) ≠ [] := by
    obtain ⟨t, types, htypes⟩ := List.exists_cons_of_ne_nil h.types_ne
    have ht := (h.types t (by simp [htypes])).ne_nil
    rw [htypes]
    cases types with
    | nil => simpa using ht
    | cons next types => simp [List.intercalate_cons_cons]
  rw [annotated?_callChars]
  exact call?_callChars h.function.ne_nil (h.function.notMem '\'' (by simp)) hsome hquote
    h.text.ne_nil (h.text.notMem '\n' (by simp)) h.unmarked

theorem ofParts_eq (h : Writable r instruction) :
    ofParts r.file.toList r.place (r.function.toList, [' '].intercalate (r.types.map String.toList)) =
      r.respelled := by
  have hspace : ∀ part ∈ r.types.map String.toList, ' ' ∉ part := by
    intro part hpart
    obtain ⟨t, ht, rfl⟩ := List.mem_map.mp hpart
    exact (h.types t ht).notMem ' ' (by simp)
  have hcut := Text.cut_intercalate (by simpa using h.types_ne) hspace
  simp [ofParts, respelled, hcut]

theorem ofChars? (h : Writable r instruction) :
    CallRecord.ofChars? (r.chars instruction) = some r.respelled := by
  have hfile := upTo?_append h.file.ne_nil (h.file.notMem ':' (by simp)) (placeChars r.place ++
    callChars r.function.toList ([' '].intercalate (r.types.map String.toList)) instruction)
  have hparts := h.ofParts_eq
  rw [CallRecord.ofChars?, chars, hfile]
  simp only [bind, pure, Option.bind_some]
  cases hplace : r.place with
  | none =>
    rw [hplace] at hparts
    rw [placeChars, after?_append, Option.bind_some, h.call]
    simp only [hparts]
  | some p =>
    rw [hplace] at hparts
    rw [placeChars, List.append_assoc, List.cons_append, unknown_of_toDigits,
      place?_written p (by rfl), Option.bind_some, h.call, Option.bind_some, hparts]

theorem notMem_chars (h : Writable r instruction) : '\n' ∉ r.chars instruction := by
  have hdigits : ∀ n, '\n' ∉ Nat.toDigits 10 n := by
    intro n hmem
    exact absurd (Nat.isDigit_of_mem_toDigits (by omega) (by omega) hmem) (by decide)
  have hplace : '\n' ∉ placeChars r.place := by
    cases r.place with
    | none => decide
    | some p => simp [placeChars, hdigits]
  have htypes : '\n' ∉ [' '].intercalate (r.types.map String.toList) := by
    refine notMem_intercalate (by decide) ?_
    intro part hpart
    obtain ⟨t, ht, rfl⟩ := List.mem_map.mp hpart
    exact (h.types t ht).notMem '\n' (by simp)
  simp [chars, callChars, mark, hplace, htypes, h.file.notMem '\n', h.function.notMem '\n',
    h.text.notMem '\n']

end Writable

/-! ## Where a record ends -/

theorem getLast?_of_suffix (h : rest <:+ cs) (hlast : rest.getLast? = some c) : cs.getLast? = some c := by
  obtain ⟨before, rfl⟩ := h
  simp [List.getLast?_append, hlast]

theorem suffix_of_after? {start : List Char} (h : after? start cs = some rest) : rest <:+ cs := by
  rw [after?_eq_some] at h
  exact ⟨start, h.symm⟩

theorem getLast?_of_typesFrom? {types : List Char} (h : typesFrom? cs = some types) :
    cs.getLast? = some '"' := by
  obtain ⟨rest, rfl, hrest⟩ := typesFrom?_sound h
  obtain ⟨body, -, -, rfl⟩ := isInstruction_iff.mp hrest
  simp [← List.append_assoc]

theorem getLast?_of_call? {call : List Char × List Char} (h : call? cs = some call) :
    cs.getLast? = some '"' := by
  simp only [call?, Option.bind_eq_bind, Option.bind_eq_some_iff] at h
  obtain ⟨named, hnamed, ⟨function, quoted⟩, hquoted, listed, hlisted, types, htypes, -⟩ := h
  have hlast : listed.getLast? = some '"' := by
    cases listed with
    | nil => cases htypes
    | cons c listed =>
      rw [types?] at htypes
      split at htypes
      · cases htypes
      · obtain ⟨types, htypes, -⟩ := Option.map_eq_some_iff.mp htypes
        exact getLast?_of_suffix (List.suffix_cons c listed) (getLast?_of_typesFrom? htypes)
  have hsuffix := (suffix_of_after? hlisted).trans ((suffix_of_upTo? hquoted).trans (suffix_of_after? hnamed))
  exact getLast?_of_suffix hsuffix hlast

theorem getLast?_of_pastNote? {call : List Char × List Char} (h : pastNote? cs = some call) :
    cs.getLast? = some '"' := by
  induction cs with
  | nil => cases h
  | cons c cs ih =>
    unfold pastNote? at h
    split at h
    · next hmore =>
      cases h
      split at hmore
      · cases hmore
      · exact getLast?_of_suffix (List.suffix_cons c cs) (ih hmore)
    · obtain ⟨rest, hrest, hcall⟩ := Option.bind_eq_some_iff.mp h
      have hsuffix := (List.dropWhile_suffix (fun c => decide (c = ']'))).trans (suffix_of_after? hrest)
      exact getLast?_of_suffix hsuffix (getLast?_of_call? hcall)

theorem getLast?_of_annotated? {call : List Char × List Char} (h : annotated? cs = some call) :
    cs.getLast? = some '"' := by
  unfold annotated? at h
  split at h
  · exact getLast?_of_call? h
  · cases h
  · next c rest hnote =>
    split at h
    · cases h
    · have hsuffix := (List.suffix_cons c rest).trans (suffix_of_after? hnote)
      exact getLast?_of_suffix hsuffix (getLast?_of_pastNote? h)

theorem suffix_of_place? {p : Place} (h : place? cs = some (p, rest)) : rest <:+ cs := by
  simp only [place?, Option.bind_eq_bind, Option.bind_eq_some_iff, Option.pure_def, Option.some.injEq,
    Prod.mk.injEq] at h
  obtain ⟨⟨line, more⟩, hline, -, -, -, -, -, rfl⟩ := h
  exact (List.dropWhile_suffix _).trans (suffix_of_upTo? hline)

theorem getLast?_of_ofChars? {r : CallRecord} (h : ofChars? cs = some r) : cs.getLast? = some '"' := by
  rw [ofChars?, Option.bind_eq_bind, Option.bind_eq_some_iff] at h
  obtain ⟨⟨file, placed⟩, hfile, h⟩ := h
  have hlast : placed.getLast? = some '"' := by
    simp only at h
    split at h
    · next call hcall =>
      obtain ⟨rest, hrest, hcall⟩ := Option.bind_eq_some_iff.mp hcall
      exact getLast?_of_suffix (suffix_of_after? hrest) (getLast?_of_annotated? hcall)
    · simp only [Option.bind_eq_bind, Option.bind_eq_some_iff] at h
      obtain ⟨⟨p, rest⟩, hplace, call, hcall, -⟩ := h
      exact getLast?_of_suffix (suffix_of_place? hplace) (getLast?_of_annotated? hcall)
  exact getLast?_of_suffix (suffix_of_upTo? hfile) hlast

theorem getLast?_of_parse {r : CallRecord} (h : parse cs = .ok r) : cs.getLast? = some '"' := by
  unfold parse at h
  split at h
  · next hr => exact getLast?_of_ofChars? hr
  · cases h

end CfiSlack.CallRecord
