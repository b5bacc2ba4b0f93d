import CfiSlack.Proofs.WrittenFiles

/-!
# Files of one directory

Files that are written into the same directory under different names do not get into each other's way:
each can be written if it can be written alone, and keeps its content when the others follow.
-/
namespace CfiSlack

namespace Path

/-- A part of a path that names something in a directory. -/
structure IsName (name : String) : Prop where
  nonempty : name.toList ≠ []
  noSlash : '/' ∉ name.toList
  not_here : name ≠ "."
  not_up : name ≠ ".."
  short : name.utf8ByteSize ≤ FileTree.maxPart

variable {directory name : String}

theorem parts_ofList (cs : List Char) :
    parts (String.ofList cs) = ((Text.cut '/' cs).filter fun p => !p.isEmpty).map String.ofList := by
  rw [parts, String.toList_ofList]

theorem parts_append_slash (cs ds : List Char) :
    parts (String.ofList (cs ++ '/' :: ds)) = parts (String.ofList cs) ++ parts (String.ofList ds) := by
  simp only [parts_ofList, Text.cut_append_mark, List.filter_append, List.map_append]

theorem IsName.parts_eq (h : IsName name) : parts name = [name] := by
  rw [parts, Text.cut_of_notMem h.noSlash]
  simp [h.nonempty, String.ofList_toList]

/-- The path of a file is its name, or what is left of it before a slash leads to the directory. -/
theorem child_cases (directory name : String) :
    directory = "" ∧ child directory name = name ∨
      ∃ cs, child directory name = String.ofList (cs ++ '/' :: name.toList) ∧
        parts directory = parts (String.ofList cs) ∧
        isAbsolute (child directory name) = isAbsolute directory := by
  unfold child
  split
  · next hempty => exact Or.inl ⟨String.isEmpty_iff.mp hempty, rfl⟩
  · next hsome =>
    right
    split
    · next hslash =>
      obtain ⟨cs, hcs⟩ : ∃ cs, directory = String.ofList (cs ++ ['/']) := by
        obtain ⟨cs, hcs⟩ := List.getLast?_eq_some_iff.mp (beq_iff_eq.mp hslash)
        exact ⟨cs, by rw [← hcs, String.ofList_toList]⟩
      subst hcs
      refine ⟨cs, ?_, ?_, ?_⟩
      · rw [← String.toList_inj]
        simp
      · have hnothing : parts (String.ofList []) = [] := by rw [parts_ofList]; rfl
        rw [parts_append_slash, hnothing, List.append_nil]
      · cases cs <;> simp [isAbsolute]
    · refine ⟨directory.toList, ?_, by rw [String.ofList_toList], ?_⟩
      · rw [← String.toList_inj]
        simp
      · have hne : directory.toList ≠ [] := by simpa using hsome
        obtain ⟨c, cs, hcs⟩ := List.exists_cons_of_ne_nil hne
        simp [isAbsolute, hcs]

theorem parts_child (h : IsName name) : parts (child directory name) = parts directory ++ [name] := by
  rcases child_cases directory name with ⟨rfl, hchild⟩ | ⟨cs, hchild, hparts, -⟩
  · rw [hchild, h.parts_eq]
    rfl
  · rw [hchild, parts_append_slash, hparts, String.ofList_toList, h.parts_eq]

theorem isAbsolute_child (h : IsName name) :
    isAbsolute (child directory name) = isAbsolute directory := by
  rcases child_cases directory name with ⟨rfl, hchild⟩ | ⟨cs, -, -, habsolute⟩
  · rw [hchild]
    obtain ⟨c, cs, hcs⟩ := List.exists_cons_of_ne_nil h.nonempty
    have hc : c ≠ '/' := by
      rintro rfl
      exact h.noSlash (hcs ▸ List.mem_cons_self)
    simp [isAbsolute, hcs, hc]
  · exact habsolute

end Path

namespace FileTree

variable {t t' : FileTree} {l m : Location} {bytes : List UInt8} {directory name text : String}

theorem follow_append (t : FileTree) (l : Location) (ps qs : List String) :
    t.follow l (ps ++ qs) = t.follow l ps >>= fun m => t.follow m qs := by
  induction ps generalizing l with
  | nil => rfl
  | cons part ps ih =>
    rw [List.cons_append, follow, follow]
    cases t.entry l with
    | file bytes => rfl
    | missing => rfl
    | directory =>
      simp only
      split
      · exact ih l
      · split
        · exact ih _
        · split
          · rfl
          · exact ih _

theorem follow_name (h : Path.IsName name) :
    t.follow m [name] = .ok l ↔ t.entry m = .directory ∧ l = m ++ [name] := by
  rw [follow]
  cases t.entry m with
  | file bytes => simp
  | missing => simp
  | directory => simp [h.not_here, h.not_up, Nat.not_lt.mpr h.short, follow, eq_comm]

/-- A path leads to a directory that is there. -/
structure Leads (t : FileTree) (path : String) (m : Location) : Prop where
  follow : t.follow (t.origin path) (Path.parts path) = .ok m
  entry : t.entry m = .directory

theorem Leads.unique {k : Location} (hm : t.Leads directory m) (hk : t.Leads directory k) : m = k :=
  Except.ok.inj (hm.follow.symm.trans hk.follow)

theorem locate_child (h : Path.IsName name) :
    t.locate (Path.child directory name) = .ok l ↔
      Fits (Path.child directory name) ∧ ∃ m, t.Leads directory m ∧ l = m ++ [name] := by
  rw [locate_eq_ok, Path.parts_child h, follow_append, bind_eq_ok]
  have horigin : t.origin (Path.child directory name) = t.origin directory := by
    rw [origin, Path.isAbsolute_child h, origin]
  rw [horigin]
  refine and_congr_right fun _ => exists_congr fun m => ?_
  rw [follow_name h]
  constructor
  · rintro ⟨hfollow, hentry, rfl⟩
    exact ⟨⟨hfollow, hentry⟩, rfl⟩
  · rintro ⟨hleads, rfl⟩
    exact ⟨hleads.follow, hleads.entry, rfl⟩

theorem Leads.put (h : t.Leads directory m) (hl : t.entry l ≠ .directory) :
    (t.put l bytes).Leads directory m where
  follow := follow_put hl h.follow
  entry := by
    refine entry_put_of_directory h.entry ?_
    rintro rfl
    exact hl h.entry

theorem writeFile_child (h : Path.IsName name) :
    t.writeFile (Path.child directory name) text = .ok t' ↔
      (Fits (Path.child directory name) ∧ Path.endsInSlash (Path.child directory name) = false) ∧
        ∃ m, t.Leads directory m ∧ t.entry (m ++ [name]) ≠ .directory ∧
          t' = t.put (m ++ [name]) (Text.toBytes text) := by
  simp only [writeFile_eq_ok_iff, locate_child h]
  constructor
  · rintro ⟨l, ⟨hfits, m, hleads, rfl⟩, hslash, hentry, rfl⟩
    exact ⟨⟨hfits, hslash⟩, m, hleads, hentry, rfl⟩
  · rintro ⟨⟨hfits, hslash⟩, m, hleads, hentry, rfl⟩
    exact ⟨_, ⟨hfits, m, hleads, rfl⟩, hslash, hentry, rfl⟩

variable {other content : String} {t'' : FileTree}

/-- What can be written after a file of another name can be written without it. -/
theorem exists_writeFile_before (h : Path.IsName name) (ho : Path.IsName other) (hne : other ≠ name)
    (hfirst : t.writeFile (Path.child directory name) text = .ok t')
    (hsecond : t'.writeFile (Path.child directory other) content = .ok t'') :
    ∃ alone, t.writeFile (Path.child directory other) content = .ok alone := by
  obtain ⟨-, m, hleads, hentry, rfl⟩ := (writeFile_child h).mp hfirst
  obtain ⟨hpath, k, hleads', hentry', -⟩ := (writeFile_child ho).mp hsecond
  -- the path of the directory leads to one place, before and after
  cases (hleads.put hentry).unique hleads'
  refine ⟨_, (writeFile_child ho).mpr ⟨hpath, m, hleads, ?_, rfl⟩⟩
  intro hdirectory
  exact hentry' (entry_put_of_directory hdirectory (by simpa using hne))

/-- A file keeps its content when one of another name is written. -/
theorem find_writeFile_other (h : Path.IsName name) (ho : Path.IsName other) (hne : other ≠ name)
    (hfind : t.find (Path.child directory name) = .ok (.file bytes))
    (hwrite : t.writeFile (Path.child directory other) content = .ok t') :
    t'.find (Path.child directory name) = .ok (.file bytes) := by
  obtain ⟨l, hlocate, hentry, hslash⟩ := find_eq_file.mp hfind
  obtain ⟨hfits, m, hleads, rfl⟩ := (locate_child h).mp hlocate
  obtain ⟨-, k, hleads', hentry', rfl⟩ := (writeFile_child ho).mp hwrite
  cases hleads.unique hleads'
  refine find_eq_file.mpr ⟨m ++ [name], ?_, ?_, hslash⟩
  · exact (locate_child h).mpr ⟨hfits, m, hleads.put hentry', rfl⟩
  · exact entry_put_of_file hentry (by simpa using hne.symm)

end FileTree
end CfiSlack
