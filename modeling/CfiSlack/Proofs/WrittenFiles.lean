import CfiSlack.Files.Tree
import CfiSlack.Proofs.Fallible

/-!
# Files that were written

A file that was written is found again under the same path, with the bytes of its text. Whether it can
be written does not depend on the text.
-/
namespace CfiSlack

namespace Text

theorem toBytes_ofList (cs : List Char) :
    toBytes (String.ofList cs) = cs.flatMap String.utf8EncodeChar := by
  rw [toBytes, String.toUTF8_eq_toByteArray, String.toByteArray_ofList, List.utf8Encode,
    List.toList_data_toByteArray]

theorem ofBytes?_toBytes (s : String) : ofBytes? (toBytes s) = some s := by
  have hvalid : s.toUTF8.IsValidUTF8 := s.isValidUTF8
  change (if h : s.toUTF8.IsValidUTF8 then some (String.fromUTF8 s.toUTF8 h) else none) = some s
  rw [dif_pos hvalid]
  rfl

end Text

namespace FileTree

variable {t t' : FileTree} {k l m : Location} {bytes : List UInt8} {parts : List String}
  {path text : String}

theorem entry_put_self : (t.put l bytes).entry l = .file bytes := by
  simp [entry, put]

theorem entry_eq_file : t.entry k = .file bytes ↔ t.files.find? k = some bytes := by
  unfold entry
  split
  · next hfile => simp [hfile]
  · next hfile =>
    split <;> simp [hfile]

theorem entry_put_of_file {new : List UInt8} (h : t.entry k = .file bytes) (hne : k ≠ l) :
    (t.put l new).entry k = .file bytes := by
  rw [entry_eq_file] at h ⊢
  rw [put, Table.find?_insert, if_neg hne, h]

theorem find?_of_entry_directory (h : t.entry k = .directory) :
    t.files.find? k = none ∧ ∃ location ∈ t.locations, k.isPrefixOf location = true := by
  unfold entry at h
  split at h
  · cases h
  · next hfile =>
    split at h
    · next hprefix => exact ⟨hfile, List.any_eq_true.mp hprefix⟩
    · cases h

/-- A new file at another place leaves a directory as it was. -/
theorem entry_put_of_directory (h : t.entry k = .directory) (hne : k ≠ l) :
    (t.put l bytes).entry k = .directory := by
  obtain ⟨hfile, location, hlocation, hprefix⟩ := find?_of_entry_directory h
  have hfile' : (t.put l bytes).files.find? k = none := by
    rw [put, Table.find?_insert, if_neg hne, hfile]
  have hlocation' : location ∈ (t.put l bytes).locations := by
    simp only [locations, put, List.mem_cons, List.mem_append, Table.mem_keys_insert] at hlocation ⊢
    tauto
  have hany : (t.put l bytes).locations.any (fun location => k.isPrefixOf location) = true :=
    List.any_eq_true.mpr ⟨location, hlocation', hprefix⟩
  simp only [entry, hfile', hany, if_true]

/-- A new file is in nobody's way, if no directory was in its place: all ways pass through directories
only. -/
theorem follow_put (hl : t.entry l ≠ .directory) (h : t.follow k parts = .ok m) :
    (t.put l bytes).follow k parts = .ok m := by
  induction parts generalizing k with
  | nil => exact h
  | cons part parts ih =>
    unfold follow at h ⊢
    split at h
    · cases h
    · cases h
    · next hdirectory =>
      have hne : k ≠ l := by
        rintro rfl
        exact hl hdirectory
      rw [entry_put_of_directory hdirectory hne]
      simp only
      split at h
      · next hdot => rw [if_pos hdot, ih h]
      · next hdot =>
        rw [if_neg hdot]
        split at h
        · next hup => rw [if_pos hup, ih h]
        · next hup =>
          rw [if_neg hup]
          split at h
          · cases h
          · next hlong => rw [if_neg hlong, ih h]

/-- Where a path starts. -/
def origin (t : FileTree) (path : String) : Location := if Path.isAbsolute path then [] else t.home

/-- A path that can be followed at all. -/
structure Fits (path : String) : Prop where
  noNul : ¬ path.toList.contains '\x00' = true
  nonempty : ¬ path.isEmpty = true
  short : ¬ path.utf8ByteSize ≥ maxPath

theorem locate_eq_ok :
    t.locate path = .ok l ↔ Fits path ∧ t.follow (t.origin path) (Path.parts path) = .ok l := by
  unfold locate
  split
  · next hnul => exact ⟨nofun, fun h => absurd hnul h.1.noNul⟩
  · next hnul =>
    split
    · next hempty => exact ⟨nofun, fun h => absurd hempty h.1.nonempty⟩
    · next hempty =>
      split
      · next hlong => exact ⟨nofun, fun h => absurd hlong h.1.short⟩
      · next hlong => exact (and_iff_right ⟨hnul, hempty, hlong⟩).symm

theorem locate_put (hl : t.entry l ≠ .directory) (h : t.locate path = .ok m) :
    (t.put l bytes).locate path = .ok m := by
  obtain ⟨hfits, hfollow⟩ := locate_eq_ok.mp h
  exact locate_eq_ok.mpr ⟨hfits, follow_put hl hfollow⟩

theorem find_eq_file :
    t.find path = .ok (.file bytes) ↔
      ∃ l, t.locate path = .ok l ∧ t.entry l = .file bytes ∧ Path.endsInSlash path = false := by
  unfold find
  rw [bind_eq_ok]
  refine exists_congr fun l => and_congr_right fun _ => ?_
  cases t.entry l with
  | missing => simp [throw, throwThe, MonadExceptOf.throw]
  | directory => simp [pure, Except.pure]
  | file found =>
    cases Path.endsInSlash path with
    | true => simp [throw, throwThe, MonadExceptOf.throw]
    | false => simp [pure, Except.pure]

theorem writeFile_eq_ok_iff :
    t.writeFile path text = .ok t' ↔ ∃ l, t.locate path = .ok l ∧ Path.endsInSlash path = false ∧
      t.entry l ≠ .directory ∧ t' = t.put l (Text.toBytes text) := by
  unfold writeFile
  rw [bind_eq_ok]
  refine exists_congr fun l => and_congr_right fun _ => ?_
  cases Path.endsInSlash path with
  | true => simp [throw, throwThe, MonadExceptOf.throw, bind, Except.bind]
  | false =>
    cases t.entry l with
    | directory => simp [throw, throwThe, MonadExceptOf.throw]
    | file bytes => simp [pure, Except.pure, eq_comm]
    | missing => simp [pure, Except.pure, eq_comm]

theorem exists_writeFile (h : t.writeFile path text = .ok t') (other : String) :
    ∃ t'', t.writeFile path other = .ok t'' := by
  obtain ⟨l, hlocate, hslash, hentry, -⟩ := writeFile_eq_ok_iff.mp h
  exact ⟨_, writeFile_eq_ok_iff.mpr ⟨l, hlocate, hslash, hentry, rfl⟩⟩

theorem find_writeFile (h : t.writeFile path text = .ok t') :
    t'.find path = .ok (.file (Text.toBytes text)) := by
  obtain ⟨l, hlocate, hslash, hentry, rfl⟩ := writeFile_eq_ok_iff.mp h
  exact find_eq_file.mpr ⟨l, locate_put hentry hlocate, entry_put_self, hslash⟩

theorem openFile_writeFile (h : t.writeFile path text = .ok t')
    (hplain : Path.extension? path ≠ some packedExtension) (room : ℕ) :
    t'.openFile room path = .ok ⟨Text.toBytes text, none⟩ := by
  refine bind_eq_ok.mpr ⟨_, find_writeFile h, ?_⟩
  simp only [if_neg hplain]
  rfl

end FileTree
end CfiSlack
