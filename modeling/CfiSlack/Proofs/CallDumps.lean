import CfiSlack.CallDump
import CfiSlack.Proofs.RecordPattern
import Mathlib.Data.List.DropRight

/-!
# Wrapped and cut off call dumps

A dump of records that were wrapped over lines is read back, if no line but the last of a record ends with
a quote. In the other direction, the lines of a dump that is read are those of its records, up to the last
line that ends with a quote; what follows that line is lost without notice, so that a dump is accounted
for just when only empty lines follow.
-/
namespace CfiSlack.CallDump

open CallRecord (respelled)

variable {pending lines : List (List Char)} {line cs : List Char} {records : List CallRecord}

/-! ## One line after the other -/

theorem parseLines_of_ne (h : line.getLast? ≠ some '"') :
    parseLines pending (line :: lines) = parseLines (line :: pending) lines := by
  rw [parseLines, if_neg h]

theorem parseLines_of_eq (h : line.getLast? = some '"') :
    parseLines pending (line :: lines) =
      (CallRecord.parse (pending.reverse ++ [line]).flatten).bind fun r =>
        (parseLines [] lines).map (r :: ·) := by
  rw [parseLines, if_pos h, List.reverse_cons]
  rfl

theorem parseLines_append {opening : List (List Char)} (h : ∀ l ∈ opening, l.getLast? ≠ some '"') :
    parseLines pending (opening ++ lines) = parseLines (opening.reverse ++ pending) lines := by
  induction opening generalizing pending with
  | nil => rfl
  | cons l opening ih =>
    have hopening : ∀ m ∈ opening, m.getLast? ≠ some '"' := fun m hm => h m (List.mem_cons_of_mem l hm)
    rw [List.cons_append, parseLines_of_ne (h l List.mem_cons_self), ih hopening]
    simp

/-! ## Reading what was written -/

/-- A record with its instruction, wrapped over lines. -/
structure Entry where
  record : CallRecord
  instruction : List Char
  writable : record.Writable instruction
  pieces : List (List Char)
  flatten_pieces : pieces.flatten = record.chars instruction
  wrapped : ∀ piece ∈ pieces.dropLast, piece.getLast? ≠ some '"' ∧ piece.getLast? ≠ some '\r'

/-- The text of some entries; every line is closed by a line feed. -/
def text (dump : List Entry) : List Char := (dump.flatMap Entry.pieces).flatMap (· ++ ['\n'])

namespace Entry

/-- The last piece is the one with the closing quote. -/
theorem exists_last (e : Entry) : ∃ opening last, e.pieces = opening ++ [last] ∧ last.getLast? = some '"' ∧
    ∀ piece ∈ opening, piece.getLast? ≠ some '"' ∧ piece.getLast? ≠ some '\r' := by
  have hends := CallRecord.getLast?_of_ofChars? e.writable.ofChars?
  rw [← e.flatten_pieces] at hends
  obtain hnil | ⟨opening, last, hpieces⟩ := e.pieces.eq_nil_or_concat'
  · rw [hnil] at hends
    cases hends
  · have hopening := e.wrapped
    rw [hpieces, List.dropLast_concat] at hopening
    refine ⟨opening, last, hpieces, ?_, hopening⟩
    rw [hpieces, List.getLast?_flatten, List.reverse_concat, List.findSome?_cons] at hends
    cases hlast : last.getLast? with
    | some c =>
      rw [hlast] at hends
      exact hends
    | none =>
      rw [hlast] at hends
      obtain ⟨piece, hpiece, hquote⟩ := List.exists_of_findSome?_eq_some hends
      exact absurd hquote (hopening piece (List.mem_reverse.mp hpiece)).1

theorem parseLines_pieces (e : Entry) (lines : List (List Char)) :
    parseLines [] (e.pieces ++ lines) = (parseLines [] lines).map (e.record.respelled :: ·) := by
  obtain ⟨opening, last, hpieces, hlast, hopening⟩ := e.exists_last
  have hparse : CallRecord.parse (opening ++ [last]).flatten = .ok e.record.respelled := by
    rw [← hpieces, e.flatten_pieces, CallRecord.parse, e.writable.ofChars?]
  rw [hpieces, List.append_assoc, parseLines_append fun l hl => (hopening l hl).1, List.singleton_append,
    parseLines_of_eq hlast, List.append_nil, List.reverse_reverse, hparse]
  rfl

theorem getLast?_ne_return (e : Entry) : ∀ piece ∈ e.pieces, piece.getLast? ≠ some '\r' := by
  obtain ⟨opening, last, hpieces, hlast, hopening⟩ := e.exists_last
  intro piece hpiece
  rw [hpieces] at hpiece
  rcases List.mem_append.mp hpiece with hpiece | hpiece
  · exact (hopening piece hpiece).2
  · rw [List.mem_singleton.mp hpiece, hlast]
    decide

theorem notMem_piece (e : Entry) : ∀ piece ∈ e.pieces, '\n' ∉ piece := by
  intro piece hpiece hmem
  have hchars := e.writable.notMem_chars
  rw [← e.flatten_pieces] at hchars
  exact hchars (List.mem_flatten.mpr ⟨piece, hpiece, hmem⟩)

end Entry

theorem parseLines_pieces (dump : List Entry) :
    parseLines [] (dump.flatMap Entry.pieces) = .ok (dump.map (·.record.respelled)) := by
  induction dump with
  | nil => rfl
  | cons e dump ih =>
    rw [List.flatMap_cons, e.parseLines_pieces, ih]
    rfl

theorem getLast?_pieces (dump : List Entry) : (dump.flatMap Entry.pieces).getLast? ≠ some [] := by
  rcases dump.eq_nil_or_concat' with rfl | ⟨dump, e, rfl⟩
  · simp
  · obtain ⟨opening, last, hpieces, hlast, -⟩ := e.exists_last
    rw [List.flatMap_append, List.flatMap_singleton, hpieces, ← List.append_assoc, List.getLast?_concat]
    rintro h
    cases h
    cases hlast

theorem lines_text (dump : List Entry) :
    Text.lines (text dump) = dump.flatMap Entry.pieces ∧
      Text.lines (text dump).dropLast = dump.flatMap Entry.pieces := by
  have hline : ∀ piece ∈ dump.flatMap Entry.pieces, '\n' ∉ piece := by
    intro piece hpiece
    obtain ⟨e, -, hpiece⟩ := List.mem_flatMap.mp hpiece
    exact e.notMem_piece piece hpiece
  have hreturn : ∀ piece ∈ dump.flatMap Entry.pieces, piece.getLast? ≠ some '\r' := by
    intro piece hpiece
    obtain ⟨e, -, hpiece⟩ := List.mem_flatMap.mp hpiece
    exact e.getLast?_ne_return piece hpiece
  have htext := Text.lines_flatMap_append hline hreturn []
  rw [List.append_nil, show Text.lines [] = [] from rfl, List.append_nil] at htext
  exact ⟨htext, Text.lines_dropLast_flatMap hline hreturn (getLast?_pieces dump)⟩

/-- Records are what the pattern matches, and a dump of written records is read back, in their order and
with or without a line feed at the end. -/
theorem written_dumps_read_back (digit : CallRecord.DigitClass) (dump : List Entry) :
    (∀ cs, CallRecord.ofChars? cs = digit.read? cs) ∧
      parse (text dump) = .ok (dump.map (·.record.respelled)) ∧
      parse (text dump).dropLast = .ok (dump.map (·.record.respelled)) := by
  obtain ⟨hclosed, hopen⟩ := lines_text dump
  refine ⟨fun cs => (digit.read?_eq cs).symm, ?_, ?_⟩
  · rw [parse, hclosed, parseLines_pieces]
  · rw [parse, hopen, parseLines_pieces]

/-- A record at line 0, cut within its column and with an empty line, whose types and instruction have the
marks of other parts in them. -/
def confusing : Entry where
  record := ⟨"a b.c", some ⟨0, 4294967295⟩, "f<g", ["long", "Pointer(long)", "<x>"]⟩
  instruction := "it's \"x\" >y< ".toList
  writable := by decide
  pieces := ["a b.c:0:42".toList, [], "94967295 'f<g' >long Pointer(long) <x>< \"it's \"x".toList,
    "\" >y< \"".toList]
  flatten_pieces := by decide
  wrapped := by decide

def unplaced : Entry where
  record := ⟨"b.c", none, "g", ["void"]⟩
  instruction := "call".toList
  writable := by decide
  pieces := ["b.c:0 'g' >void< \"call\"".toList]
  flatten_pieces := by decide
  wrapped := by decide

theorem written_dumps_read_back_confusing :
    parse ("a b.c:0:42\n\n94967295 'f<g' >long Pointer(long) <x>< \"it's \"x\n\" >y< \"\n" ++
        "b.c:0 'g' >void< \"call\"").toList =
      .ok [⟨"a b.c", some ⟨0, 4294967295⟩, "f<g", ["long int", "Pointer(long int)", "<x>"]⟩,
        ⟨"b.c", none, "g", ["void"]⟩] := by
  have htext : ("a b.c:0:42\n\n94967295 'f<g' >long Pointer(long) <x>< \"it's \"x\n\" >y< \"\n" ++
      "b.c:0 'g' >void< \"call\"").toList = (text [confusing, unplaced]).dropLast := by decide
  rw [htext]
  exact (written_dumps_read_back .decimal [confusing, unplaced]).2.2

/-! ## What is lost -/

/-- Lines that fall into groups, one for each record, with empty lines between them. -/
inductive Accounted : List (List Char) → List CallRecord → Prop
  | nil : Accounted [] []
  | empty {rest : List (List Char)} {rs : List CallRecord} : Accounted rest rs → Accounted ([] :: rest) rs
  | group {group rest : List (List Char)} {r : CallRecord} {rs : List CallRecord} :
      CallRecord.parse group.flatten = .ok r → Accounted rest rs → Accounted (group ++ rest) (r :: rs)

/-- The lines up to the last one that ends with a quote. -/
def finished (lines : List (List Char)) : List (List Char) := lines.rdropWhile (·.getLast? ≠ some '"')

/-- The lines behind the last one that ends with a quote. -/
def unfinished (lines : List (List Char)) : List (List Char) := lines.rtakeWhile (·.getLast? ≠ some '"')

theorem finished_append_unfinished (lines : List (List Char)) : finished lines ++ unfinished lines = lines :=
  List.rdropWhile_append_rtakeWhile

theorem finished_append_cons (before : List (List Char)) (h : line.getLast? = some '"')
    (lines : List (List Char)) : finished (before ++ line :: lines) = before ++ line :: finished lines := by
  induction lines using List.reverseRecOn with
  | nil => exact List.rdropWhile_concat_neg _ _ _ (by simpa using h)
  | append_singleton lines last ih =>
    have hsplit : before ++ line :: (lines ++ [last]) = (before ++ line :: lines) ++ [last] := by simp
    rw [hsplit]
    by_cases hlast : last.getLast? = some '"'
    · have hkept : ∀ l, finished (l ++ [last]) = l ++ [last] := fun l =>
        List.rdropWhile_concat_neg _ _ _ (by simpa using hlast)
      rw [hkept, hkept, hsplit]
    · have hdropped : ∀ l, finished (l ++ [last]) = finished l := fun l =>
        List.rdropWhile_concat_pos _ _ _ (by simpa using hlast)
      rw [hdropped, hdropped, ih]

theorem accounted_of_parseLines (hpending : ∀ l ∈ pending, l.getLast? ≠ some '"')
    (h : parseLines pending lines = .ok records) :
    Accounted (finished (pending.reverse ++ lines)) records := by
  induction lines generalizing pending records with
  | nil =>
    cases h
    have hnil : finished (pending.reverse ++ []) = [] := by
      rw [List.append_nil, finished, List.rdropWhile_eq_nil_iff]
      simpa using hpending
    rw [hnil]
    exact .nil
  | cons line lines ih =>
    by_cases hline : line.getLast? = some '"'
    · rw [parseLines_of_eq hline] at h
      obtain ⟨r, hr, hrecords⟩ := bind_eq_ok.mp h
      obtain ⟨more, hmore, rfl⟩ := map_eq_ok.mp hrecords
      have hnone : ∀ l ∈ ([] : List (List Char)), l.getLast? ≠ some '"' := by simp
      have hgroup := Accounted.group hr (ih hnone hmore)
      rw [finished_append_cons _ hline]
      simpa using hgroup
    · rw [parseLines_of_ne hline] at h
      have hopen : ∀ l ∈ line :: pending, l.getLast? ≠ some '"' := by simpa [hline] using hpending
      simpa using ih hopen h

namespace Accounted

/-- The last text in lines that are accounted for is that of a record. -/
theorem getLast?_flatten (h : Accounted lines records) :
    lines.flatten = [] ∨ lines.flatten.getLast? = some '"' := by
  induction h with
  | nil => exact .inl rfl
  | empty _ ih => exact ih
  | group hr _ ih =>
    right
    rw [List.flatten_append, List.getLast?_append]
    rcases ih with hnil | hlast
    · rw [hnil, CallRecord.getLast?_of_parse hr]
      rfl
    · rw [hlast]
      rfl

theorem append_empty (h : Accounted lines records) {more : List (List Char)} (hmore : ∀ l ∈ more, l = []) :
    Accounted (lines ++ more) records := by
  induction h with
  | nil =>
    induction more with
    | nil => exact .nil
    | cons l more ih =>
      rw [hmore l List.mem_cons_self]
      exact .empty (ih fun m hm => hmore m (List.mem_cons_of_mem l hm))
  | empty _ ih => exact .empty ih
  | group hr _ ih =>
    rw [List.append_assoc]
    exact .group hr ih

end Accounted

/-- A dump that is read accounts for its lines up to the last quote at a line end, and for all of them
just when nothing but empty lines follows. -/
theorem accounted_iff_unfinished_empty (h : parse cs = .ok records) :
    Accounted (finished (Text.lines cs)) records ∧
      (Accounted (Text.lines cs) records ↔ ∀ line ∈ unfinished (Text.lines cs), line = []) := by
  have hfinished : Accounted (finished (Text.lines cs)) records := accounted_of_parseLines (by simp) h
  refine ⟨hfinished, ?_, ?_⟩
  · intro hall
    by_contra hne
    have htext : (unfinished (Text.lines cs)).flatten ≠ [] := by
      rwa [Ne, List.flatten_eq_nil_iff]
    have hends := hall.getLast?_flatten
    rw [← finished_append_unfinished (Text.lines cs), List.flatten_append] at hends
    rcases hends with hnil | hquote
    · exact htext (List.append_eq_nil_iff.mp hnil).2
    · rw [List.getLast?_append_of_ne_nil _ htext, List.getLast?_flatten] at hquote
      obtain ⟨line, hline, hquote⟩ := List.exists_of_findSome?_eq_some hquote
      have hopen := List.mem_rtakeWhile_imp (List.mem_reverse.mp hline)
      exact of_decide_eq_true hopen hquote
  · intro hempty
    have hall := hfinished.append_empty hempty
    rwa [finished_append_unfinished] at hall

/-- A dump that breaks off within its second record. -/
def cutOff : List Char :=
  "a.c:1:2 'f' >int< \"call\"\nb.c:3:4 'g' >void char< \"call i32 %5(\n".toList

theorem unfinished_record_lost :
    parse cutOff = .ok [⟨"a.c", some ⟨1, 2⟩, "f", ["int"]⟩] ∧
      ¬ Accounted (Text.lines cutOff) [⟨"a.c", some ⟨1, 2⟩, "f", ["int"]⟩] := by
  have hparse : parse cutOff = .ok [⟨"a.c", some ⟨1, 2⟩, "f", ["int"]⟩] := by rfl
  have hlost : ¬ ∀ line ∈ unfinished (Text.lines cutOff), line = [] := by decide
  exact ⟨hparse, (accounted_iff_unfinished_empty hparse).2.not.mpr hlost⟩

end CfiSlack.CallDump
