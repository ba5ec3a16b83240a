import BpmnModel.CommandLine.FileTree
import Mathlib.Data.String.Basic

/-!
# What writing a file changes

A path leads to a file only through directories, so a new file makes no directory of what was none,
and nothing but the file that was written looks different afterwards.

* `FileTree.Written` — the tree has a new text at some names and is otherwise what it was.
* `FileTree.written_of_write` — this is what writing does.
* `FileTree.Written.becomes` — what each path leads to afterwards, hence which texts are read
  (`Written.read_self`, `Written.read_other`).
* `FileTree.splitOn_slash` — a text without slashes has one part.
* `FileTree.IsName` — a path that leads no further than the working directory.
-/

namespace BpmnModel

namespace Place

/-- The names of the file that is there or can be made. -/
def spot? : Place → Option (List String)
  | file names _ | vacant names => some names
  | directory | blocked _ => none

/-- What becomes of a place when a text is written at some names. A way that ended nowhere still
does, though maybe for another reason. -/
inductive Becomes (names : List String) (text : String) : Place → Place → Prop
  | kept {n : List String} {x : String} (h : n ≠ names) : Becomes names text (file n x) (file n x)
  | rewritten (x : String) : Becomes names text (file names x) (file names text)
  | vacant {n : List String} (h : n ≠ names) : Becomes names text (vacant n) (vacant n)
  | created : Becomes names text (Place.vacant names) (file names text)
  | directory : Becomes names text directory directory
  | blocked (fault fault' : FileFault) : Becomes names text (blocked fault) (blocked fault')

end Place

namespace FileTree

variable {t t' : FileTree} {here names : List String} {text : String}

/-! ## Ways through directories -/

/-- All names on the way are directories. -/
def Open (t : FileTree) (here : List String) : Prop :=
  ∀ names, names <+: here → t.isDirectory names = true

theorem isDirectory_of_isOutside (h : isOutside names = true) : t.isDirectory names = true := by
  simp [isDirectory, h]

theorem open_start (t : FileTree) (path : String) : t.Open (start path) := by
  intro names h
  apply isDirectory_of_isOutside
  unfold start at h
  split at h
  · rcases List.prefix_cons_iff.mp h with rfl | ⟨rest, rfl, hrest⟩
    · rfl
    · cases List.prefix_nil.mp hrest
      rfl
  · rw [List.prefix_nil.mp h]
    rfl

theorem Open.above (h : t.Open here) : t.Open (above here) := by
  unfold FileTree.above
  split
  · rename_i htop
    exact htop ▸ h
  · split
    · rename_i htop houtside
      have hup : here.all (· = "..") = true := by simpa [isOutside, htop] using houtside
      intro names hnames
      have hall : names.all (· = "..") = true := by
        rw [List.all_eq_true] at hup ⊢
        intro name hname
        rcases List.mem_append.mp (hnames.subset hname) with hname | hname
        · exact hup name hname
        · simpa using hname
      exact isDirectory_of_isOutside (by simp [isOutside, hall])
    · exact fun names hnames => h names (hnames.trans (List.dropLast_prefix here))

theorem Open.concat (h : t.Open here) {name : String} (hd : t.isDirectory (here ++ [name]) = true) :
    t.Open (here ++ [name]) := by
  intro names hnames
  rcases List.prefix_concat_iff.mp hnames with rfl | hnames
  · exact hd
  · exact h names hnames

/-- What a way leads to is found step by step, and the directory in which it is found is open. -/
theorem follow_cases (h : t.Open here) (way : List String) :
    t.follow here way = .directory ∨ (∃ fault, t.follow here way = .blocked fault) ∨
      ∃ parent name, t.Open parent ∧
        t.follow here way = match t.files.lookup (parent ++ [name]) with
          | some text => .file (parent ++ [name]) text
          | none => .vacant (parent ++ [name]) := by
  induction way generalizing here with
  | nil => exact .inl rfl
  | cons name rest ih =>
    rw [follow]
    split
    · exact ih h
    · split
      · exact ih h.above
      · split
        · exact .inr (.inl ⟨_, rfl⟩)
        · simp only
          split
          · rename_i hd
            exact ih (h.concat hd)
          · cases rest with
            | nil =>
              refine .inr (.inr ⟨here, name, h, ?_⟩)
              cases t.files.lookup (here ++ [name]) <;> rfl
            | cons step rest =>
              refine .inr (.inl ?_)
              cases t.files.lookup (here ++ [name]) with
              | some text => exact ⟨_, rfl⟩
              | none => exact ⟨_, rfl⟩

theorem locate_cases (t : FileTree) (path : String) :
    t.locate path = .directory ∨ (∃ fault, t.locate path = .blocked fault) ∨
      ∃ parent name, t.Open parent ∧
        t.locate path = match t.files.lookup (parent ++ [name]) with
          | some text => .file (parent ++ [name]) text
          | none => .vacant (parent ++ [name]) := by
  unfold locate
  split
  · exact .inr (.inl ⟨_, rfl⟩)
  · exact follow_cases (t.open_start path) _

/-! ## Writing -/

/-- The second tree has the text at these names, and is otherwise the first. -/
structure Written (t : FileTree) (names : List String) (text : String) (t' : FileTree) : Prop where
  lookup : ∀ n, t'.files.lookup n = if n = names then some text else t.files.lookup n
  isDirectory : ∀ n, t'.isDirectory n = t.isDirectory n
  directories : t'.directories = t.directories
  userConfig : t'.userConfig = t.userConfig

theorem lookup_map_text (files : List (List String × String)) (n : List String) :
    (files.map fun (m, x) => if m = names then (m, text) else (m, x)).lookup n =
      (files.lookup n).map fun x => if n = names then text else x := by
  induction files with
  | nil => rfl
  | cons file files ih =>
    obtain ⟨m, x⟩ := file
    have hhead : (if m = names then (m, text) else (m, x)) =
        (m, if m = names then text else x) := by
      split <;> rfl
    rw [List.map_cons, List.lookup_cons, List.lookup_cons, ih]
    simp only [hhead]
    by_cases hm : n = m
    · simp [hm]
    · have hbeq : (n == m) = false := beq_eq_false_iff_ne.mpr hm
      simp only [hbeq]

/-- Renaming no file makes no directory. -/
theorem isDirectory_map_text (t : FileTree) (n : List String) :
    isDirectory { t with files := t.files.map fun (m, x) =>
      if m = names then (m, text) else (m, x) } n = t.isDirectory n := by
  have hany : ((t.files.map fun (m, x) => if m = names then (m, text) else (m, x)).any
      fun (file, _) => n.length < file.length && n.isPrefixOf file) =
        t.files.any fun (file, _) => n.length < file.length && n.isPrefixOf file := by
    rw [List.any_map]
    congr 1
    funext ⟨m, x⟩
    by_cases hm : m = names <;> simp [hm]
  rw [isDirectory, isDirectory, hany]

/-- A new file in an open directory makes no directory. -/
theorem isDirectory_append (h : t.Open here) {name : String} (n : List String) :
    isDirectory { t with files := t.files ++ [(here ++ [name], text)] } n = t.isDirectory n := by
  have hnew : (n.length < (here ++ [name]).length && n.isPrefixOf (here ++ [name])) = true →
      t.isDirectory n = true := by
    intro hpre
    simp only [Bool.and_eq_true, decide_eq_true_eq, List.isPrefixOf_iff_prefix] at hpre
    obtain ⟨hlen, hpre⟩ := hpre
    rcases List.prefix_concat_iff.mp hpre with rfl | hpre
    · exact absurd hlen (Nat.lt_irrefl _)
    · exact h n hpre
  have happend : isDirectory { t with files := t.files ++ [(here ++ [name], text)] } n =
      (t.isDirectory n || (n.length < (here ++ [name]).length && n.isPrefixOf (here ++ [name]))) := by
    unfold isDirectory
    rw [List.any_append, ← Bool.or_assoc, List.any_cons, List.any_nil, Bool.or_false]
  rw [happend]
  cases hd : t.isDirectory n with
  | true => rfl
  | false =>
    rw [Bool.false_or]
    exact Bool.eq_false_iff.mpr fun hpre => Bool.false_ne_true (hd ▸ hnew hpre)

/-- **Writing changes one file.** It is the one that the path leads to, or a new one there. -/
theorem written_of_write {path : String} (h : t.write path text = .ok t') :
    ∃ names, (t.locate path).spot? = some names ∧ t.Written names text t' := by
  unfold write at h
  rcases t.locate_cases path with hplace | ⟨fault, hplace⟩ | ⟨parent, name, hopen, hplace⟩
  · rw [hplace] at h
    cases h
  · rw [hplace] at h
    cases h
  · refine ⟨parent ++ [name], ?_, ?_⟩
    · rw [hplace]
      cases t.files.lookup (parent ++ [name]) <;> rfl
    · rw [hplace] at h
      cases hlookup : t.files.lookup (parent ++ [name]) with
      | some old =>
        rw [hlookup] at h
        cases h
        refine ⟨fun n => ?_, t.isDirectory_map_text, rfl, rfl⟩
        rw [lookup_map_text]
        by_cases hn : n = parent ++ [name]
        · simp [hn, hlookup]
        · simp [hn]
      | none =>
        rw [hlookup] at h
        cases h
        refine ⟨fun n => ?_, isDirectory_append hopen, rfl, rfl⟩
        rw [List.lookup_append]
        by_cases hn : n = parent ++ [name]
        · simp [hn, hlookup]
        · have hbeq : (n == parent ++ [name]) = false := beq_eq_false_iff_ne.mpr hn
          simp [hn, List.lookup_cons, hbeq]

/-! ## What paths lead to afterwards -/

namespace Written

variable (h : t.Written names text t')

include h

theorem follow_becomes (here way : List String) :
    (t.follow here way).Becomes names text (t'.follow here way) := by
  induction way generalizing here with
  | nil => exact .directory
  | cons name rest ih =>
    rw [follow, follow]
    split
    · exact ih here
    · split
      · exact ih _
      · split
        · exact .blocked _ _
        · simp only [h.isDirectory, h.lookup]
          split
          · exact ih _
          · by_cases hn : here ++ [name] = names
            · subst hn
              cases t.files.lookup (here ++ [name]) <;> cases rest <;> simp <;> constructor
            · simp only [hn, if_false]
              cases t.files.lookup (here ++ [name]) <;> cases rest <;> simp <;> constructor <;> exact hn

theorem becomes (path : String) : (t.locate path).Becomes names text (t'.locate path) := by
  unfold locate
  split
  · exact .blocked _ _
  · exact h.follow_becomes _ _

/-- The path now leads to the text. -/
theorem locate_self {path : String} (hspot : (t.locate path).spot? = some names) :
    t'.locate path = .file names text := by
  have hbecomes := h.becomes path
  generalize t.locate path = place at hbecomes hspot
  generalize t'.locate path = place' at hbecomes
  cases hbecomes with
  | kept hn => exact absurd (Option.some.inj hspot) hn
  | rewritten x => rfl
  | vacant hn => exact absurd (Option.some.inj hspot) hn
  | created => rfl
  | directory => cases hspot
  | blocked fault fault' => cases hspot

/-- What was written is read. -/
theorem read_self {path : String} (hspot : (t.locate path).spot? = some names) :
    t'.read path = .ok text := by
  rw [read, h.locate_self hspot]

variable {path : String} (hspot : (t.locate path).spot? ≠ some names)

include hspot

/-- A path that leads elsewhere leads to the same texts. -/
theorem read_other (x : String) : t'.read path = .ok x ↔ t.read path = .ok x := by
  have hbecomes := h.becomes path
  unfold read
  generalize t.locate path = place at hbecomes hspot
  generalize t'.locate path = place' at hbecomes
  cases hbecomes with
  | kept | vacant | directory => rfl
  | rewritten | created => exact absurd rfl hspot
  | blocked fault fault' => exact ⟨nofun, nofun⟩

theorem isThere_other : t'.isThere path = t.isThere path := by
  have hbecomes := h.becomes path
  unfold isThere
  generalize t.locate path = place at hbecomes hspot
  generalize t'.locate path = place' at hbecomes
  cases hbecomes with
  | rewritten | created => exact absurd rfl hspot
  | _ => rfl

end Written

/-! ## Names in the working directory -/

-- The induction is on what is still to be looked at; no part has ended so far, so the one part
-- begins at the front.
theorem splitOnAux_slash {l r : List Char} (h : '/' ∉ r) :
    (String.ofList (l ++ r)).splitOnAux "/" 0 ⟨String.utf8Len l⟩ 0 [] =
      [String.ofList (l ++ r)] := by
  induction r generalizing l with
  | nil =>
    have hextract := String.extract_of_valid [] l []
    have hend := (String.atEnd_of_valid l []).mpr rfl
    simp only [String.utf8Len_nil, List.nil_append, List.append_nil, Nat.zero_add] at hextract hend ⊢
    rw [String.splitOnAux, if_pos hend]
    exact congrArg ([·]) hextract
  | cons c r ih =>
    obtain ⟨hc, hr⟩ := not_or.mp (mt List.mem_cons.mpr h)
    have hend := mt (String.atEnd_of_valid l (c :: r)).mp (List.cons_ne_nil c r)
    have hget := String.get_of_valid l (c :: r)
    have hnext := String.next_of_valid l c r
    have hrest := ih (l := l ++ [c]) hr
    rw [List.append_assoc, List.singleton_append, String.utf8Len_append, String.utf8Len_cons,
      String.utf8Len_nil, Nat.zero_add] at hrest
    have hslash : (c == String.Pos.Raw.get "/" 0) = false := beq_false_of_ne (Ne.symm hc)
    rw [String.splitOnAux, if_neg hend, hget, List.headD_cons, hslash, if_neg Bool.false_ne_true]
    exact (congrArg (String.splitOnAux _ _ 0 · 0 []) hnext).trans hrest

/-- A text without slashes has one part. -/
theorem splitOn_slash {path : String} (h : '/' ∉ path.toList) : path.splitOn "/" = [path] := by
  have hparts := splitOnAux_slash (l := []) h
  rw [List.nil_append, String.ofList_toList] at hparts
  exact hparts

/-- The path is the name of something in the working directory. -/
structure IsName (path : String) : Prop where
  noSlash : '/' ∉ path.toList
  noNul : '\x00' ∉ path.toList
  nonempty : path ≠ ""
  here : path ≠ "."
  above : path ≠ ".."
  short : path.utf8ByteSize ≤ maxName

namespace IsName

variable {path : String} (h : IsName path) (t : FileTree)

include h

theorem fault : pathFault? path = none := by
  have hnul : path.contains '\x00' = false := by simpa using h.noNul
  have hsize : ¬maxPath < path.utf8ByteSize := Nat.not_lt.mpr (h.short.trans (by decide))
  rw [pathFault?, hnul, if_neg Bool.false_ne_true, if_neg h.nonempty, if_neg hsize]

theorem start : start path = [] := by
  have hslash : path.startsWith "/" = false := by
    rw [String.startsWith_string_eq_false_iff]
    exact fun hlead => h.noSlash (hlead.subset (List.mem_singleton_self _))
  rw [FileTree.start, hslash]
  rfl

theorem locate : t.locate path =
    if t.isDirectory [path] then .directory
    else
      match t.files.lookup [path] with
      | some text => .file [path] text
      | none => .vacant [path] := by
  unfold FileTree.locate
  rw [h.fault, h.start, splitOn_slash h.noSlash]
  simp only [follow, h.nonempty, h.here, h.above, or_self, if_false, Nat.not_lt.mpr h.short,
    List.nil_append]
  split
  · rfl
  · cases t.files.lookup [path] <;> rfl

variable {t}

theorem spot? (hfile : t.isDirectory [path] = false) : (t.locate path).spot? = some [path] := by
  rw [h.locate, hfile]
  cases t.files.lookup [path] <;> rfl

/-- What is no directory can be written. -/
theorem exists_write (hfile : t.isDirectory [path] = false) (text : String) :
    ∃ t', t.write path text = .ok t' := by
  rw [write, h.locate, hfile]
  cases t.files.lookup [path] with
  | some old => exact ⟨_, rfl⟩
  | none => exact ⟨_, rfl⟩

theorem write_directory (hdirectory : t.isDirectory [path] = true) (text : String) :
    t.write path text = .error .isDirectory := by
  rw [write, h.locate, hdirectory]
  rfl

end IsName

end FileTree

end BpmnModel
