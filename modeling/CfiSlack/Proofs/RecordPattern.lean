import CfiSlack.Proofs.CallRecords
import Mathlib.Data.List.TakeWhile

/-!
# The pattern of call records

Call records are described by the pattern

    ^(?P<file>[^:]+):(?:(?P<unknown>0)|(?P<line>\d+):(?P<column>\d+))(?: @\[.+ \]+)?
     '(?P<function>[^']+)' >(?P<types>[^']+)< "(?P<ir>.+)"$

(without the line break). The ways in which a pattern matches are ordered by preference: a longer
repetition before a shorter one, the left alternative before the right one, an optional part before its
absence. A record is read from the first way that leaves nothing of the text. Reading a record part by
part gives the same, although only the note and the types are ever tried at several lengths: everything
else is forced by the character behind it.
-/
namespace CfiSlack.CallRecord

/-- The parts of a record that are read from a match. -/
inductive Name where
  | file | unknown | line | column | function | types
  deriving DecidableEq

inductive Pattern where
  | word (w : List Char)
  /-- One or more characters of a class. -/
  | many (p : Char → Bool)
  | seq (a b : Pattern)
  | either (a b : Pattern)
  | maybe (a : Pattern)
  | part (name : Name) (a : Pattern)

abbrev Parts := List (Name × List Char)

/-- A way to match the beginning of a text. -/
structure Way where
  parts : Parts
  taken : List Char
  rest : List Char

namespace Pattern

/-- The beginnings of a text within a class, and what is behind them; the longest is the first. -/
def repeats (p : Char → Bool) : List Char → List (List Char × List Char)
  | [] => []
  | c :: cs => if p c then (repeats p cs).map (fun x => (c :: x.1, x.2)) ++ [([c], cs)] else []

/-- All ways, in the order of preference. -/
def ways : Pattern → List Char → List Way
  | word w, cs => (after? w cs).toList.map fun rest => ⟨[], w, rest⟩
  | many p, cs => (repeats p cs).map fun x => ⟨[], x.1, x.2⟩
  | seq a b, cs => (a.ways cs).flatMap fun x => (b.ways x.rest).map fun y =>
      ⟨x.parts ++ y.parts, x.taken ++ y.taken, y.rest⟩
  | either a b, cs => a.ways cs ++ b.ways cs
  | maybe a, cs => a.ways cs ++ [⟨[], [], cs⟩]
  | part name a, cs => (a.ways cs).map fun x => ⟨(name, x.taken) :: x.parts, x.taken, x.rest⟩

/-- The parts of the preferred match of a whole text. -/
def match? (a : Pattern) (cs : List Char) : Option Parts :=
  ((a.ways cs).find? (·.rest = [])).map Way.parts

end Pattern

/-- Characters that count as digits; these may be more than the ten that numbers are read from. -/
structure DigitClass where
  has : Char → Bool
  has_isDigit : ∀ c, c.isDigit = true → has c = true
  has_colon : has ':' = false
  has_space : has ' ' = false

namespace DigitClass

def decimal : DigitClass where
  has := Char.isDigit
  has_isDigit _ h := h
  has_colon := by decide
  has_space := by decide

variable {digit : DigitClass} {c : Char}

theorem ne_colon (h : digit.has c = true) : c ≠ ':' := by
  rintro rfl
  rw [digit.has_colon] at h
  cases h

theorem ne_space (h : digit.has c = true) : c ≠ ' ' := by
  rintro rfl
  rw [digit.has_space] at h
  cases h

end DigitClass

namespace Pattern

def placed (digit : DigitClass) : Pattern :=
  seq (part .line (many digit.has)) (seq (word [':']) (part .column (many digit.has)))

def place (digit : DigitClass) : Pattern := either (part .unknown (word ['0'])) (placed digit)

def note : Pattern :=
  seq (word " @[".toList) (seq (many (· ≠ '\n')) (seq (word [' ']) (many (· = ']'))))

def instruction : Pattern := seq (word mark) (seq (many (· ≠ '\n')) (word ['"']))

def call : Pattern :=
  seq (word " '".toList) (seq (part .function (many (· ≠ '\''))) (seq (word ['\''])
    (seq (word " >".toList) (seq (part .types (many (· ≠ '\''))) instruction))))

def annotated : Pattern := seq (maybe note) call

def record (digit : DigitClass) : Pattern :=
  seq (part .file (many (· ≠ ':'))) (seq (word [':']) (seq (place digit) annotated))

end Pattern

/-- The record that the parts of a match give. -/
def ofMatch? (parts : Parts) : Option CallRecord := do
  let file ← parts.lookup .file
  let place ←
    if (parts.lookup .unknown).isSome then pure none
    else
      let line ← parts.lookup .line
      let column ← parts.lookup .column
      pure (some ⟨← number? line, ← number? column⟩)
  return ofParts file place (← parts.lookup .function, ← parts.lookup .types)

namespace Pattern

variable {β : Type} {p : Char → Bool} {cs : List Char}

/-! ## Matching step by step

`run` hands each way to the rest of the pattern, until one succeeds. -/

def run (a : Pattern) (next : Parts → List Char → Option β) (cs : List Char) : Option β :=
  (a.ways cs).findSome? fun x => next x.parts x.rest

/-- The first repetition with which the rest succeeds. -/
def firstRepeat (p : Char → Bool) (next : List Char → List Char → Option β) (cs : List Char) : Option β :=
  (repeats p cs).findSome? fun x => next x.1 x.2

/-- The first repetition, which may be empty, with which the rest succeeds. -/
def firstRepeat₀ (p : Char → Bool) (next : List Char → List Char → Option β) (cs : List Char) :
    Option β :=
  (firstRepeat p next cs).or (next [] cs)

theorem findSome?_flatMap {α γ : Type} (l : List α) (f : α → List γ) (g : γ → Option β) :
    (l.flatMap f).findSome? g = l.findSome? fun a => (f a).findSome? g := by
  induction l with
  | nil => rfl
  | cons a l ih =>
    rw [List.flatMap_cons, List.findSome?_append, ih, List.findSome?_cons]
    cases (f a).findSome? g <;> rfl

section Run

variable (next : Parts → List Char → Option β)

theorem run_word (w : List Char) : run (word w) next = fun cs => (after? w cs).bind (next []) := by
  funext cs
  cases h : after? w cs <;> simp [run, ways, h]

theorem run_part_word (name : Name) (w : List Char) :
    run (part name (word w)) next = fun cs => (after? w cs).bind (next [(name, w)]) := by
  funext cs
  cases h : after? w cs <;> simp [run, ways, h]

theorem run_many : run (many p) next = firstRepeat p fun _ => next [] := by
  funext cs
  simp only [run, ways, firstRepeat, List.findSome?_map]
  rfl

theorem run_part_many (name : Name) :
    run (part name (many p)) next = firstRepeat p fun taken => next [(name, taken)] := by
  funext cs
  simp only [run, ways, firstRepeat, List.findSome?_map]
  rfl

theorem run_seq (a b : Pattern) :
    run (seq a b) next = run a fun parts => run b fun more => next (parts ++ more) := by
  funext cs
  simp only [run, ways, findSome?_flatMap, List.findSome?_map]
  rfl

theorem run_either (a b : Pattern) :
    run (either a b) next = fun cs => (run a next cs).or (run b next cs) := by
  funext cs
  exact List.findSome?_append

theorem run_maybe (a : Pattern) : run (maybe a) next = fun cs => (run a next cs).or (next [] cs) := by
  funext cs
  simp [run, ways]

end Run

section Repeat

variable {next : List Char → List Char → Option β}

theorem firstRepeat_cons (c : Char) (cs : List Char) :
    firstRepeat p next (c :: cs) =
      if p c = true then firstRepeat₀ p (fun taken => next (c :: taken)) cs else none := by
  unfold firstRepeat repeats
  split
  · simp only [List.findSome?_append, List.findSome?_map, firstRepeat₀, firstRepeat,
      List.findSome?_singleton]
    rfl
  · rfl

theorem firstRepeat₀_cons (c : Char) (cs : List Char) :
    firstRepeat₀ p next (c :: cs) =
      (if p c = true then firstRepeat₀ p (fun taken => next (c :: taken)) cs else none).or
        (next [] (c :: cs)) := by
  rw [firstRepeat₀, firstRepeat_cons]

/-- If the rest never begins within the class, then the whole stretch of the class is taken. -/
theorem firstRepeat_of_forced (h : ∀ taken c rest, p c = true → next taken (c :: rest) = none) :
    firstRepeat p next cs =
      if cs.takeWhile p = [] then none else next (cs.takeWhile p) (cs.dropWhile p) := by
  induction cs generalizing next with
  | nil => rfl
  | cons c cs ih =>
    rw [firstRepeat_cons]
    by_cases hc : p c = true
    · have hrest := @ih (fun taken => next (c :: taken)) fun taken => h (c :: taken)
      rw [if_pos hc, firstRepeat₀, hrest, List.takeWhile_cons_of_pos hc, List.dropWhile_cons_of_pos hc,
        if_neg (List.cons_ne_nil _ _)]
      cases cs with
      | nil => simp
      | cons d cs =>
        by_cases hd : p d = true
        · simp [hd, h [c] d cs hd]
        · simp [hd]
    · simp [hc]

theorem firstRepeat_upTo? {stop : Char} (more : List Char → List Char → Option β) :
    firstRepeat (· ≠ stop) (fun taken rest => (after? [stop] rest).bind (more taken)) cs =
      (upTo? stop cs).bind fun x => more x.1 x.2 := by
  rw [firstRepeat_of_forced, upTo?_eq]
  · split
    · rfl
    · rw [Option.bind_map]
      rfl
  · intro taken c rest hc
    rw [after?_of_ne (by simpa using hc), Option.bind_none]

end Repeat

/-! ## The parts of a record -/

/-- The end of a match: nothing may be left. -/
def atEnd (result : Parts → β) (parts : Parts) (rest : List Char) : Option β :=
  if rest = [] then some (result parts) else none

variable (result : Parts → β)

theorem firstRepeat_closing (b : β) :
    firstRepeat (· ≠ '\n') (fun _ rest => if rest = ['"'] then some b else none) cs =
      if isInstruction cs = true then some b else none := by
  induction cs with
  | nil => rfl
  | cons c cs ih =>
    rw [firstRepeat_cons, firstRepeat₀, ih]
    simp only [isInstruction_cons]
    by_cases hc : c = '\n'
    · simp [hc]
    · by_cases hcs : isInstruction cs = true
      · simp [hc, hcs]
      · simp [hc, hcs]

theorem run_instruction :
    run instruction (atEnd result) = fun cs =>
      if (after? mark cs).any isInstruction = true then some (result []) else none := by
  funext cs
  have hclose : ∀ rest, (after? ['"'] rest).bind (atEnd result []) =
      if rest = ['"'] then some (result []) else none := by
    intro rest
    cases h : after? ['"'] rest with
    | none =>
      rw [Option.bind_none, if_neg]
      rintro rfl
      cases h
    | some more =>
      rw [after?_eq_some.mp h]
      simp [atEnd]
  simp only [instruction, run_seq, run_word, run_many, List.nil_append]
  cases after? mark cs with
  | none => rfl
  | some rest =>
    simp only [Option.bind_some, hclose, firstRepeat_closing, Option.any_some]

theorem firstRepeat₀_types (f : List Char → β) :
    firstRepeat₀ (· ≠ '\'')
      (fun taken rest => if (after? mark rest).any isInstruction = true then some (f taken) else none) cs =
      (typesFrom? cs).map f := by
  induction cs generalizing f with
  | nil => rfl
  | cons c cs ih =>
    rw [firstRepeat₀_cons, ih, typesFrom?_cons, Option.map_or]
    by_cases hc : c = '\''
    · simp [hc, apply_ite (Option.map f)]
    · simp [hc, apply_ite (Option.map f), Function.comp_def]

theorem firstRepeat_types (f : List Char → β) :
    firstRepeat (· ≠ '\'')
      (fun taken rest => if (after? mark rest).any isInstruction = true then some (f taken) else none) cs =
      (types? cs).map f := by
  cases cs with
  | nil => rfl
  | cons c cs =>
    rw [firstRepeat_cons, firstRepeat₀_types, types?]
    by_cases hc : c = '\''
    · simp [hc]
    · simp [hc, Function.comp_def]

theorem run_call :
    run call (atEnd result) = fun cs =>
      (call? cs).map fun x => result [(.function, x.1), (.types, x.2)] := by
  funext cs
  have htail : ∀ function types,
      run instruction (fun more => atEnd result ((.function, function) :: (.types, types) :: more)) =
        fun cs => if (after? mark cs).any isInstruction = true then
          some (result [(.function, function), (.types, types)]) else none :=
    fun function types =>
      run_instruction fun more => result ((.function, function) :: (.types, types) :: more)
  simp only [call, run_seq, run_word, run_part_many, List.nil_append, List.cons_append, htail,
    firstRepeat_types, firstRepeat_upTo?]
  simp only [call?, Option.bind_eq_bind, Option.map_eq_bind, Option.bind_assoc, Option.bind_some,
    Option.pure_def, Function.comp_def]

/-- Behind the brackets that close a note. -/
def closing? (cs : List Char) : Option (List Char × List Char) :=
  (after? " ]".toList cs).bind fun rest => call? (rest.dropWhile (· = ']'))

theorem firstRepeat_brackets (f : List Char × List Char → β) :
    (after? [' '] cs).bind (firstRepeat (· = ']') fun _ rest => (call? rest).map f) =
      (closing? cs).map f := by
  have hbrackets : firstRepeat (· = ']') (fun _ rest => (call? rest).map f) = fun cs =>
      ((after? [']'] cs).bind fun rest => call? (rest.dropWhile (· = ']'))).map f := by
    funext cs
    rw [firstRepeat_of_forced]
    · cases cs with
      | nil => rfl
      | cons c cs =>
        by_cases hc : c = ']'
        · subst hc
          rw [show ']' :: cs = [']'] ++ cs from rfl, after?_append]
          simp
        · rw [after?_of_ne hc]
          simp [hc]
    · intro taken c rest hc
      rw [of_decide_eq_true hc, call?_of_ne (by decide), Option.map_none]
  rw [hbrackets, closing?, show " ]".toList = [' '] ++ [']'] from rfl, after?_start_append,
    Option.bind_assoc, Option.map_bind]
  rfl

theorem firstRepeat₀_closing? (f : List Char × List Char → β) :
    firstRepeat₀ (· ≠ '\n') (fun _ rest => (closing? rest).map f) cs = (pastNote? cs).map f := by
  induction cs with
  | nil => rfl
  | cons c cs ih =>
    rw [firstRepeat₀_cons, ih, pastNote?]
    by_cases hc : c = '\n'
    · simp [hc, closing?]
    · cases h : pastNote? cs
      · simp [hc, closing?]
      · simp [hc]

theorem run_annotated :
    run annotated (atEnd result) = fun cs =>
      (annotated? cs).map fun x => result [(.function, x.1), (.types, x.2)] := by
  funext cs
  simp only [annotated, note, run_seq, run_maybe, run_word, run_many, List.nil_append, run_call,
    firstRepeat_brackets]
  cases hnote : after? " @[".toList cs with
  | none => rw [annotated?, hnote, Option.bind_none, Option.none_or]
  | some rest =>
    have hcall : call? cs = none := by
      rw [after?_eq_some.mp hnote]
      rfl
    rw [annotated?, hnote, hcall, Option.bind_some, Option.map_none, Option.or_none]
    cases rest with
    | nil => rfl
    | cons c rest =>
      rw [firstRepeat_cons, firstRepeat₀_closing?]
      by_cases hc : c = '\n'
      · simp [hc]
      · simp [hc]

variable (digit : DigitClass)

theorem run_placed {next : Parts → List Char → Option β}
    (hnext : ∀ parts c rest, c ≠ ' ' → next parts (c :: rest) = none) :
    run (placed digit) next cs =
      if cs.takeWhile digit.has = [] then none
      else (after? [':'] (cs.dropWhile digit.has)).bind fun more =>
        if more.takeWhile digit.has = [] then none
        else next [(.line, cs.takeWhile digit.has), (.column, more.takeWhile digit.has)]
          (more.dropWhile digit.has) := by
  have hline : ∀ (f : List Char → List Char → Option β) taken c rest, digit.has c = true →
      (after? [':'] (c :: rest)).bind (f taken) = none := by
    intro f taken c rest hc
    rw [after?_of_ne (DigitClass.ne_colon hc), Option.bind_none]
  have hcolumn : ∀ line, firstRepeat digit.has (fun column => next [(.line, line), (.column, column)]) =
      fun cs => if cs.takeWhile digit.has = [] then none
        else next [(.line, line), (.column, cs.takeWhile digit.has)] (cs.dropWhile digit.has) := by
    intro line
    funext cs
    refine firstRepeat_of_forced ?_
    intro taken c rest hc
    exact hnext _ c rest (DigitClass.ne_space hc)
  simp only [placed, run_seq, run_word, run_part_many, List.nil_append, List.cons_append, hcolumn]
  rw [firstRepeat_of_forced (hline _)]

end Pattern

/-! ## Numbers among more digits -/

namespace DigitClass

variable (digit : DigitClass) {β : Type} {cs : List Char}

/-- A number that is read up to a colon is the whole stretch of digits before it. -/
theorem line_eq (f : UInt32 → List Char → Option β) :
    (if cs.takeWhile digit.has = [] then none
      else (after? [':'] (cs.dropWhile digit.has)).bind fun more =>
        (number? (cs.takeWhile digit.has)).bind fun n => f n more) =
      (upTo? ':' cs).bind fun x => (number? x.1).bind fun n => f n x.2 := by
  cases hbehind : after? [':'] (cs.dropWhile digit.has) with
  | some more =>
    have hcs : cs = cs.takeWhile digit.has ++ ':' :: more := by
      have hsplit := List.takeWhile_append_dropWhile (p := digit.has) (l := cs)
      rw [after?_eq_some.mp hbehind] at hsplit
      exact hsplit.symm
    have hcolon : ':' ∉ cs.takeWhile digit.has := fun hmem => ne_colon (List.mem_takeWhile_imp hmem) rfl
    by_cases hline : cs.takeWhile digit.has = []
    · have hnone : upTo? ':' cs = none := by
        rw [hline] at hcs
        rw [hcs]
        simp [upTo?]
      rw [if_pos hline, hnone, Option.bind_none]
    · have hsome : upTo? ':' cs = some (cs.takeWhile digit.has, more) := by
        have happend := upTo?_append hline hcolon more
        rwa [← hcs] at happend
      rw [if_neg hline, hsome, Option.bind_some, Option.bind_some]
  | none =>
    rw [Option.bind_none, ite_self]
    symm
    refine Option.bind_eq_none_iff.mpr ?_
    rintro ⟨line, more⟩ hsplit
    refine Option.bind_eq_none_iff.mpr ?_
    intro n hn
    -- a line that is a number would have been taken as a whole
    have hall : ∀ c ∈ line, digit.has c = true := fun c hc => digit.has_isDigit c (isDigit_of_number? hn hc)
    have hdrop : cs.dropWhile digit.has = [':'] ++ more := by
      have hcolon : ¬ digit.has ':' = true := fun h => ne_colon h rfl
      rw [eq_of_upTo? hsplit, List.dropWhile_append_of_pos hall, List.dropWhile_cons_of_neg hcolon]
      rfl
    rw [hdrop, after?_append] at hbehind
    cases hbehind

theorem isDigit_split (h : ∀ c ∈ cs.takeWhile digit.has, c.isDigit = true) :
    cs.takeWhile (Char.isDigit ·) = cs.takeWhile digit.has ∧
      cs.dropWhile (Char.isDigit ·) = cs.dropWhile digit.has := by
  have hcs := List.takeWhile_append_dropWhile (p := digit.has) (l := cs)
  have hstop : (cs.dropWhile digit.has).takeWhile (Char.isDigit ·) = [] ∧
      (cs.dropWhile digit.has).dropWhile (Char.isDigit ·) = cs.dropWhile digit.has := by
    have hhead := List.head?_dropWhile_not digit.has cs
    generalize cs.dropWhile digit.has = rest at hhead
    cases rest with
    | nil => simp
    | cons c rest =>
      have hc : c.isDigit = false := by
        refine Bool.eq_false_iff.mpr fun hc => ?_
        have hhas : digit.has c = false := hhead
        rw [digit.has_isDigit c hc] at hhas
        cases hhas
      simp [hc]
  generalize cs.takeWhile digit.has = taken at h hcs
  generalize cs.dropWhile digit.has = rest at hstop hcs
  rw [← hcs, List.takeWhile_append_of_pos h, List.dropWhile_append_of_pos h, hstop.1, hstop.2]
  simp

/-- The decimal digits may end before a further digit; no call begins there. -/
theorem annotated?_of_not_isDigit (h : ¬ ∀ c ∈ cs.takeWhile digit.has, c.isDigit = true) :
    annotated? (cs.dropWhile (Char.isDigit ·)) = none := by
  have hcs := List.takeWhile_append_dropWhile (p := digit.has) (l := cs)
  have hhas : ∀ c ∈ cs.takeWhile digit.has, digit.has c = true := fun c => List.mem_takeWhile_imp
  generalize cs.takeWhile digit.has = taken at h hcs hhas
  have hdrop : taken.dropWhile (Char.isDigit ·) ≠ [] := by
    simpa [List.dropWhile_eq_nil_iff] using h
  obtain ⟨c, more, hmore⟩ := List.exists_cons_of_ne_nil hdrop
  have hsuffix := List.dropWhile_suffix (l := taken) (Char.isDigit ·)
  rw [hmore] at hsuffix
  have hc := hhas c (hsuffix.subset List.mem_cons_self)
  rw [← hcs, List.dropWhile_append, hmore, List.isEmpty_cons, if_neg Bool.false_ne_true, List.cons_append]
  exact annotated?_of_ne (ne_space hc)

/-- Before a blank, a number is the whole stretch of digits. -/
theorem column_eq (f : UInt32 → List Char × List Char → Option β) :
    (if cs.takeWhile digit.has = [] then none
      else (annotated? (cs.dropWhile digit.has)).bind fun call =>
        (number? (cs.takeWhile digit.has)).bind fun n => f n call) =
      (number? (cs.takeWhile (Char.isDigit ·))).bind fun n =>
        (annotated? (cs.dropWhile (Char.isDigit ·))).bind fun call => f n call := by
  by_cases hall : ∀ c ∈ cs.takeWhile digit.has, c.isDigit = true
  · rw [(digit.isDigit_split hall).1, (digit.isDigit_split hall).2]
    by_cases hne : cs.takeWhile digit.has = []
    · rw [if_pos hne, hne]
      rfl
    · rw [if_neg hne]
      cases number? (cs.takeWhile digit.has) <;> cases annotated? (cs.dropWhile digit.has) <;> rfl
  · have hnumber : number? (cs.takeWhile digit.has) = none := by
      refine Option.eq_none_iff_forall_ne_some.mpr ?_
      intro n hn
      exact hall fun c hc => isDigit_of_number? hn hc
    rw [hnumber, digit.annotated?_of_not_isDigit hall]
    simp

end DigitClass

/-! ## The whole record -/

/-- A record read by the pattern. -/
def DigitClass.read? (digit : DigitClass) (cs : List Char) : Option CallRecord :=
  ((Pattern.record digit).match? cs).bind ofMatch?

theorem Pattern.match?_eq_run (a : Pattern) (cs : List Char) : a.match? cs = run a (atEnd id) cs := by
  unfold match? run
  induction a.ways cs with
  | nil => rfl
  | cons x xs ih =>
    rw [List.find?_cons, List.findSome?_cons, atEnd]
    by_cases hx : x.rest = []
    · simp [hx]
    · simp only [hx, decide_false, if_false]
      exact ih

theorem Pattern.run_record (digit : DigitClass) (cs : List Char) :
    run (record digit) (atEnd id) cs = (upTo? ':' cs).bind fun x =>
      (((after? ['0'] x.2).bind annotated?).map fun call =>
        [(Name.file, x.1), (.unknown, ['0']), (.function, call.1), (.types, call.2)]).or
      (run (placed digit) (fun parts rest => (annotated? rest).map fun call =>
        (Name.file, x.1) :: (parts ++ [(.function, call.1), (.types, call.2)])) x.2) := by
  have hcall : ∀ file parts,
      run annotated (fun more => atEnd id ([(.file, file)] ++ (parts ++ more))) =
        fun cs => (annotated? cs).map fun call =>
          (Name.file, file) :: (parts ++ [(.function, call.1), (.types, call.2)]) :=
    fun file parts => run_annotated fun more => [(Name.file, file)] ++ (parts ++ more)
  simp only [record, run_seq, run_part_many, run_word, List.nil_append, firstRepeat_upTo?, hcall, place,
    run_either, run_part_word, Option.map_bind]
  rfl

theorem DigitClass.placed_eq (digit : DigitClass) (file cs : List Char) :
    (Pattern.run (.placed digit) (fun parts rest => (annotated? rest).map fun call =>
        (Name.file, file) :: (parts ++ [(.function, call.1), (.types, call.2)])) cs).bind ofMatch? =
      (place? cs).bind fun x => (annotated? x.2).map (ofParts file (some x.1)) := by
  have hread : ∀ line column call,
      ofMatch? [(.file, file), (.line, line), (.column, column), (.function, call.1), (.types, call.2)] =
        (number? line).bind fun l => (number? column).bind fun c =>
          some (ofParts file (some ⟨l, c⟩) call) := by
    intro line column call
    simp [ofMatch?, List.lookup_cons, beq_eq_decide]
  rw [Pattern.run_placed]
  · calc
      _ = if cs.takeWhile digit.has = [] then none
          else (after? [':'] (cs.dropWhile digit.has)).bind fun more =>
            (number? (cs.takeWhile digit.has)).bind fun l =>
              if more.takeWhile digit.has = [] then none
              else (annotated? (more.dropWhile digit.has)).bind fun call =>
                (number? (more.takeWhile digit.has)).bind fun c =>
                  some (ofParts file (some ⟨l, c⟩) call) := by
        split
        · rfl
        · rw [Option.bind_assoc]
          congr 1
          funext more
          split
          · cases number? (cs.takeWhile digit.has) <;> rfl
          · simp only [Option.bind_map, Function.comp_def, List.cons_append, List.nil_append, hread]
            cases number? (cs.takeWhile digit.has) <;> simp
      _ = _ := by
        simp only [digit.column_eq, digit.line_eq, place?, Option.bind_eq_bind, Option.bind_assoc,
          Option.pure_def, Option.bind_some, Option.map_eq_bind, Function.comp_def]
  · intro parts c rest hc
    rw [annotated?_of_ne hc, Option.map_none]

/-- The pattern and the reader by parts read the same records. -/
theorem DigitClass.read?_eq (digit : DigitClass) (cs : List Char) : digit.read? cs = ofChars? cs := by
  rw [DigitClass.read?, Pattern.match?_eq_run, Pattern.run_record, ofChars?, Option.bind_eq_bind,
    Option.bind_assoc]
  congr 1
  funext x
  obtain ⟨file, cs⟩ := x
  simp only
  cases hunknown : (after? ['0'] cs).bind annotated? with
  | some call => rfl
  | none =>
    rw [Option.map_none, Option.none_or, digit.placed_eq]
    simp only [Option.map_eq_bind, Option.bind_eq_bind, Option.pure_def, Function.comp_def]

end CfiSlack.CallRecord
