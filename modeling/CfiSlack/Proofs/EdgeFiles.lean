import CfiSlack.Loading
import CfiSlack.Proofs.NodeText
import CfiSlack.Proofs.WrittenFiles

/-!
# Edge lists that are written again

The text of an edge holds no blank and no comma but the one between its nodes, so that a written list
is cut into its edges again, line by line. Nodes that come from a file are read back as themselves;
hence a list that was read keeps its edges when it is written and read once more.
-/
namespace CfiSlack

namespace Text

variable {c : Char} {cs : List Char}

/-- A character that can be seen and is one byte long. -/
def IsPlain (c : Char) : Prop := 0x21 ≤ c.toNat ∧ c.toNat ≤ 0x7e

instance (c : Char) : Decidable (IsPlain c) := inferInstanceAs (Decidable (_ ∧ _))

theorem isPlain_of_isDigit (h : Numeral.IsDigit c) : IsPlain c := by
  obtain ⟨d, hd, rfl⟩ := h
  interval_cases d <;> decide

theorem IsPlain.isBlank_eq_false (h : IsPlain c) : isBlank c = false := by
  obtain ⟨hlow, hhigh⟩ := h
  rw [← Bool.not_eq_true]
  intro hblank
  simp only [isBlank, blankRuns, List.any_cons, List.any_nil, Bool.or_eq_true, Bool.and_eq_true,
    decide_eq_true_eq, Bool.false_eq_true, or_false] at hblank
  omega

theorem IsPlain.utf8EncodeChar (h : IsPlain c) : String.utf8EncodeChar c = [UInt8.ofNat c.toNat] := by
  have hsmall : c.val.toNat ≤ 127 := h.2.trans (by omega)
  simp only [String.utf8EncodeChar, hsmall, if_true]
  rfl

theorem trim_of_plain (h : ∀ c ∈ cs, IsPlain c) : trim cs = cs := by
  have hkeep (l : List Char) (hl : ∀ c ∈ l, IsPlain c) : l.dropWhile isBlank = l := by
    cases l with
    | nil => rfl
    | cons c l => simp [(hl c List.mem_cons_self).isBlank_eq_false]
  rw [trim, hkeep cs h, hkeep cs.reverse (by simpa using h), List.reverse_reverse]

theorem newline_notMem_toBytes (h : ∀ c ∈ cs, IsPlain c) : 0x0a ∉ toBytes (String.ofList cs) := by
  rw [toBytes_ofList]
  intro hmem
  obtain ⟨c, hc, hbyte⟩ := List.mem_flatMap.mp hmem
  obtain ⟨hlow, hhigh⟩ := h c hc
  rw [(h c hc).utf8EncodeChar, List.mem_singleton] at hbyte
  have hvalue := congrArg UInt8.toNat hbyte
  simp only [UInt8.toNat_ofNat', UInt8.reduceToNat] at hvalue
  omega

end Text

open Text

/-- A character of a node's text: neither blank nor a comma. -/
structure Node.IsLetter (c : Char) : Prop where
  plain : IsPlain c
  ne_comma : c ≠ ','

instance (c : Char) : Decidable (Node.IsLetter c) :=
  decidable_of_iff (IsPlain c ∧ c ≠ ',') ⟨fun h => ⟨h.1, h.2⟩, fun h => ⟨h.1, h.2⟩⟩

theorem Node.isLetter_of_isDigit {c : Char} (h : Numeral.IsDigit c) : Node.IsLetter c :=
  ⟨isPlain_of_isDigit h, h.ne (by decide)⟩

theorem Node.isLetter_of_mem_word (word : String) {c : Char}
    (hword : (word.toList.all fun c => decide (Node.IsLetter c)) = true) (h : c ∈ word.toList) :
    Node.IsLetter c :=
  of_decide_eq_true (List.all_eq_true.mp hword c h)

theorem HubLabel.isLetter_of_mem_chars {label : HubLabel} {c : Char} (h : c ∈ label.chars) :
    Node.IsLetter c := by
  cases label with
  | functions => exact Node.isLetter_of_mem_word "function" (by decide) h
  | distance d =>
    cases d with
    | infinite => exact Node.isLetter_of_mem_word "inf" (by decide) h
    | finite d =>
      rw [chars_distance_finite] at h
      exact Node.isLetter_of_isDigit (Numeral.isDigit_of_mem_padded (by omega) (by omega) h)
  | argCount n =>
    by_cases hneg : n.toInt < 0
    · rw [chars_argCount_of_neg hneg] at h
      rcases List.mem_cons.mp h with rfl | h
      · decide
      · exact Node.isLetter_of_isDigit (Numeral.isDigit_of_mem_toDigits (by omega) (by omega) h)
    · rw [chars_argCount_of_nonneg (by omega)] at h
      exact Node.isLetter_of_isDigit (Numeral.isDigit_of_mem_padded (by omega) (by omega) h)

theorem Node.isLetter_of_mem_chars {n : Node} {c : Char} (h : c ∈ n.chars) : IsLetter c := by
  cases n with
  | sink => exact isLetter_of_mem_word "target" (by decide) h
  | anywhere => exact isLetter_of_mem_word "any" (by decide) h
  | block a =>
    rcases List.mem_append.mp (show c ∈ "0x".toList ++ Nat.toDigits 16 a.toNat from h) with h | h
    · exact isLetter_of_mem_word "0x" (by decide) h
    · exact isLetter_of_isDigit (Numeral.isDigit_of_mem_toDigits (by omega) (by omega) h)
  | hub label =>
    rcases List.mem_append.mp (show c ∈ "virtual".toList ++ label.chars from h) with h | h
    · exact isLetter_of_mem_word "virtual" (by decide) h
    · exact HubLabel.isLetter_of_mem_chars h

namespace Edge

/-- The edge that the text of an edge stands for. -/
def asRead (e : Edge) : Edge := ⟨e.source.asRead, e.target.asRead⟩

theorem isPlain_of_mem_chars {e : Edge} {c : Char} (h : c ∈ e.chars) : IsPlain c := by
  rcases List.mem_append.mp h with h | h
  · exact (Node.isLetter_of_mem_chars h).plain
  · rcases List.mem_cons.mp h with rfl | h
    · decide
    · exact (Node.isLetter_of_mem_chars h).plain

end Edge

namespace EdgeList

variable {edges : List Edge} {lines : List (List Char)} {number : ℕ}

theorem edge?_chars (e : Edge) : edge? e.chars = some e.asRead := by
  have hbefore : ∀ c ∈ e.source.chars, decide (c ≠ ',') = true := fun c hc =>
    decide_eq_true (Node.isLetter_of_mem_chars hc).ne_comma
  have hsource : trim e.source.chars = e.source.chars :=
    trim_of_plain fun c hc => (Node.isLetter_of_mem_chars hc).plain
  have htarget : trim e.target.chars = e.target.chars :=
    trim_of_plain fun c hc => (Node.isLetter_of_mem_chars hc).plain
  unfold edge? Edge.chars
  rw [List.dropWhile_append_of_pos hbefore, List.takeWhile_append_of_pos hbefore]
  simp [hsource, htarget, Node.ofChars?_chars, Edge.asRead]

theorem edge?_eq_some {cs : List Char} {e : Edge} (h : edge? cs = some e) : e.asRead = e := by
  unfold edge? at h
  split at h
  · cases h
  · simp only [Option.bind_eq_bind, Option.bind_eq_some_iff] at h
    obtain ⟨source, hsource, target, htarget, h⟩ := h
    cases h
    rw [Edge.asRead, Node.asRead_of_ofChars? hsource, Node.asRead_of_ofChars? htarget]

theorem parseLines_chars (number : ℕ) (edges : List Edge) :
    parseLines number (edges.map Edge.chars) = .ok (edges.map Edge.asRead) := by
  induction edges generalizing number with
  | nil => rfl
  | cons e edges ih =>
    have htrim : trim e.chars = e.chars := trim_of_plain fun c hc => Edge.isPlain_of_mem_chars hc
    have hne : e.chars.isEmpty = false := by simp [Edge.chars]
    simp only [List.map_cons, parseLines, htrim, hne, edge?_chars, ih]
    rfl

theorem asRead_of_parseLines (h : parseLines number lines = .ok edges) :
    ∀ e ∈ edges, e.asRead = e := by
  induction lines generalizing number edges with
  | nil =>
    cases h
    simp
  | cons line lines ih =>
    unfold parseLines at h
    simp only at h
    split at h
    · exact ih h
    · split at h
      · cases h
      · next e he =>
        obtain ⟨rest, hrest, rfl⟩ := map_eq_ok.mp h
        intro d hd
        rcases List.mem_cons.mp hd with rfl | hd
        · exact edge?_eq_some he
        · exact ih hrest d hd

theorem perm_sorted (edges : List Edge) : (sorted edges).Perm edges := List.mergeSort_perm _ _

theorem pairwise_sorted (edges : List Edge) : (sorted edges).Pairwise (· ≤ ·) := by
  have htrans (a b c : Edge) (hab : decide (a ≤ b) = true) (hbc : decide (b ≤ c) = true) :
      decide (a ≤ c) = true :=
    decide_eq_true (Std.le_trans (of_decide_eq_true hab) (of_decide_eq_true hbc))
  have htotal (a b : Edge) : (decide (a ≤ b) || decide (b ≤ a)) = true := by
    simpa using Std.le_total
  exact (List.pairwise_mergeSort htrans htotal edges).imp of_decide_eq_true

theorem toBytes_text (edges : List Edge) :
    toBytes (text edges) =
      ((sorted edges).map fun e => toBytes (String.ofList e.chars)).flatMap (· ++ [0x0a]) := by
  have hnewline : String.utf8EncodeChar '\n' = [0x0a] := rfl
  simp only [text, chars, toBytes_ofList, List.flatMap_assoc, List.flatMap_append, List.flatMap_map,
    List.flatMap_cons, List.flatMap_nil, hnewline, List.append_nil]

end EdgeList

theorem byteLinesFrom_line {bytes : List UInt8} (h : 0x0a ∉ bytes) (done : List (List UInt8))
    (line rest : List UInt8) :
    byteLinesFrom done line (bytes ++ 0x0a :: rest) =
      byteLinesFrom ((line.reverse ++ bytes) :: done) [] rest := by
  induction bytes generalizing line with
  | nil => simp [byteLinesFrom]
  | cons b bytes ih =>
    have hb : b ≠ 0x0a := fun heq => h (heq ▸ List.mem_cons_self)
    have hbytes : 0x0a ∉ bytes := fun hmem => h (List.mem_cons_of_mem b hmem)
    simp [byteLinesFrom, hb, ih hbytes]

theorem byteLinesFrom_lines {lines : List (List UInt8)} (h : ∀ line ∈ lines, 0x0a ∉ line)
    (done : List (List UInt8)) :
    byteLinesFrom done [] (lines.flatMap (· ++ [0x0a])) = (done.reverse ++ lines, []) := by
  induction lines generalizing done with
  | nil => simp [byteLinesFrom]
  | cons line lines ih =>
    have hline := h line List.mem_cons_self
    have hlines : ∀ l ∈ lines, 0x0a ∉ l := fun l hl => h l (List.mem_cons_of_mem line hl)
    simp only [List.flatMap_cons, List.append_assoc, List.singleton_append]
    rw [byteLinesFrom_line hline, ih hlines]
    simp

theorem textLinesFrom_toBytes (texts done : List (List Char)) :
    textLinesFrom done (texts.map fun cs => toBytes (String.ofList cs)) =
      (done.reverse ++ texts, false) := by
  induction texts generalizing done with
  | nil => simp [textLinesFrom]
  | cons cs texts ih => simp [textLinesFrom, ofBytes?_toBytes, ih]

variable {t t' : FileTree} {path : String} {edges : List Edge}

theorem asRead_of_loadEdges (h : loadEdges t path = .ok edges) : ∀ e ∈ edges, e.asRead = e := by
  obtain ⟨content, -, h⟩ := bind_eq_ok.mp h
  obtain ⟨found, hfound, h⟩ := bind_eq_ok.mp h
  have hsame : found = edges := by
    generalize (textLinesFrom _ _).2 = bad at h
    cases bad with
    | true => cases h
    | false =>
      cases hfault : content.fault with
      | some e =>
        rw [hfault] at h
        cases h
      | none =>
        rw [hfault] at h
        cases h
        rfl
  rw [← hsame]
  exact EdgeList.asRead_of_parseLines (mapError_eq_ok.mp hfound)

/-- Whatever edges are written, their readings come back in the order of the edges. -/
theorem loadEdges_writeFile (h : t.writeFile path (EdgeList.text edges) = .ok t')
    (hplain : Path.extension? path ≠ some FileTree.packedExtension) :
    loadEdges t' path = .ok ((EdgeList.sorted edges).map Edge.asRead) := by
  have hbytes : byteLinesFrom [] [] (toBytes (EdgeList.text edges)) =
      ((EdgeList.sorted edges).map (fun e => toBytes (String.ofList e.chars)), []) := by
    rw [EdgeList.toBytes_text, byteLinesFrom_lines]
    · rfl
    · intro line hline
      obtain ⟨e, -, rfl⟩ := List.mem_map.mp hline
      exact newline_notMem_toBytes fun c hc => Edge.isPlain_of_mem_chars hc
  have htexts : textLinesFrom []
      ((EdgeList.sorted edges).map fun e => toBytes (String.ofList e.chars)) =
        ((EdgeList.sorted edges).map Edge.chars, false) := by
    have hread := textLinesFrom_toBytes ((EdgeList.sorted edges).map Edge.chars) []
    rw [List.map_map] at hread
    exact hread
  refine bind_eq_ok.mpr ⟨_, mapError_eq_ok.mpr (FileTree.openFile_writeFile h hplain lineRoom), ?_⟩
  simp only [hbytes, List.isEmpty_nil, Bool.not_true, Bool.and_false, Bool.false_eq_true, if_false,
    htexts]
  exact bind_eq_ok.mpr ⟨_, mapError_eq_ok.mpr (EdgeList.parseLines_chars 1 _), rfl⟩

/-- Edges that come from a file can be written to any place for files that is not marked as
compressed. As many are written as there are, and they are all there when they are read again, in
ascending order and as often as before. -/
theorem loaded_edges_survive_saving (t : FileTree) (path : String) (edges : List Edge)
    (h : loadEdges t path = .ok edges) (disk other : FileTree) (out text : String)
    (hout : disk.writeFile out text = .ok other)
    (hplain : Path.extension? out ≠ some FileTree.packedExtension) :
    ∃ saved, saveEdges disk out edges = .ok (saved, edges.length) ∧
      loadEdges saved out = .ok (EdgeList.sorted edges) ∧
      (EdgeList.sorted edges).Perm edges ∧ (EdgeList.sorted edges).Pairwise (· ≤ ·) := by
  obtain ⟨saved, hsaved⟩ := FileTree.exists_writeFile hout (EdgeList.text edges)
  have hperm := EdgeList.perm_sorted edges
  have hsame : (EdgeList.sorted edges).map Edge.asRead = EdgeList.sorted edges :=
    calc (EdgeList.sorted edges).map Edge.asRead
        = (EdgeList.sorted edges).map id :=
          List.map_congr_left fun e he => asRead_of_loadEdges h e (hperm.mem_iff.mp he)
      _ = EdgeList.sorted edges := List.map_id _
  refine ⟨saved, ?_, ?_, hperm, EdgeList.pairwise_sorted edges⟩
  · refine bind_eq_ok.mpr ⟨saved, mapError_eq_ok.mpr hsaved, ?_⟩
    rw [hperm.length_eq]
    rfl
  · rw [loadEdges_writeFile hsaved hplain, hsame]

/-- A list with signs, zeros, capitals, blanks, an empty line and an edge that comes twice. -/
def untidyTree : FileTree :=
  .putHome (.empty ["work"]) ["edges.csv"] (toBytes
    "virtual-05 , 0X+1f\n\n any,target\r\nvirtual+5,0x0\nvirtual+05,0xaB\n\tany,\u00a0target")

/-- The file is replaced by its tidy form. -/
theorem loaded_edges_survive_saving_untidyTree :
    ∃ edges saved, loadEdges untidyTree "edges.csv" = .ok edges ∧
      saveEdges untidyTree "./edges.csv" edges = .ok (saved, 5) ∧
      loadEdges saved "./edges.csv" = .ok [⟨.anywhere, .sink⟩, ⟨.anywhere, .sink⟩,
        ⟨.hub (.distance (.finite 5)), .block 0xab⟩, ⟨.hub (.argCount (-5)), .block 0x1f⟩,
        ⟨.hub (.argCount 5), .block 0⟩] := by
  have hload : loadEdges untidyTree "edges.csv" = .ok [⟨.hub (.argCount (-5)), .block 0x1f⟩,
      ⟨.anywhere, .sink⟩, ⟨.hub (.argCount 5), .block 0⟩,
      ⟨.hub (.distance (.finite 5)), .block 0xab⟩, ⟨.anywhere, .sink⟩] := by decide
  obtain ⟨other, hout⟩ : ∃ other, untidyTree.writeFile "./edges.csv" "" = .ok other := ⟨_, rfl⟩
  obtain ⟨saved, hsaved, hreload, hperm, hascends⟩ :=
    loaded_edges_survive_saving _ _ _ hload _ _ _ _ hout (by decide)
  refine ⟨_, saved, hload, hsaved, hreload.trans (congrArg Except.ok ?_)⟩
  refine List.Perm.eq_of_pairwise (fun _ _ _ _ => Std.le_antisymm) hascends ?_ (hperm.trans ?_)
  · decide
  · decide

end CfiSlack
