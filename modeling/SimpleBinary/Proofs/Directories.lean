import Mathlib
import SimpleBinary.Proofs.Generation

/-!
# Where files are written

A file is written below the base of its package if its path goes on from the base through plain
names (`IsBelow`).  The names in front of it are cut from a package's name at points, and nothing
keeps slashes out of them: all files of a schema are below every base just if no part of the
package's name has a slash that follows no name (`Schema.isBelow_written_iff`).
-/

namespace SimpleBinary

/-! ## Names between slashes -/

/-- A text in which every slash follows a name. -/
def IsRelative (s : String) : Prop := ∀ name ∈ (pieces '/' s.toList).dropLast, name ≠ []

instance (s : String) : Decidable (IsRelative s) := by unfold IsRelative; infer_instance

theorem pieces_ne_nil (separator : Char) : ∀ cs : List Char, pieces separator cs ≠ []
  | [] => List.cons_ne_nil _ _
  | c :: cs => by
    rw [pieces]
    split
    · exact List.cons_ne_nil _ _
    · split <;> exact List.cons_ne_nil _ _

theorem pieces_append_cons (separator : Char) (rest : List Char) : ∀ cs : List Char,
    pieces separator (cs ++ separator :: rest) = pieces separator cs ++ pieces separator rest
  | [] => by
    show pieces separator (separator :: rest) = [] :: pieces separator rest
    rw [pieces, if_pos rfl]
  | c :: cs => by
    rw [List.cons_append, pieces, pieces, pieces_append_cons separator rest cs]
    split
    · rfl
    · cases h : pieces separator cs with
      | nil => exact absurd h (pieces_ne_nil separator cs)
      | cons p ps => rfl

/-- The first piece is all of a text, or a separator follows it. -/
theorem eq_of_pieces_cons {separator : Char} {p : List Char} {ps : List (List Char)} :
    ∀ {cs : List Char}, pieces separator cs = p :: ps →
      (ps = [] ∧ cs = p) ∨ ∃ rest, cs = p ++ separator :: rest ∧ pieces separator rest = ps
  | [], h => by
    rw [pieces, List.cons.injEq] at h
    exact .inl ⟨h.2.symm, h.1⟩
  | c :: cs, h => by
    rw [pieces] at h
    split at h
    · rename_i hc
      rw [List.cons.injEq] at h
      exact .inr ⟨cs, by rw [← h.1, hc, List.nil_append], h.2⟩
    · cases hq : pieces separator cs with
      | nil => exact absurd hq (pieces_ne_nil separator cs)
      | cons q qs =>
        rw [hq] at h
        obtain ⟨rfl, rfl⟩ := List.cons.inj h
        rcases eq_of_pieces_cons hq with ⟨hnil, rfl⟩ | ⟨rest, rfl, hrest⟩
        · exact .inl ⟨hnil, rfl⟩
        · exact .inr ⟨rest, rfl, hrest⟩

/-- The last piece is empty only if nothing follows a separator. -/
theorem eq_nil_or_of_getLast?_pieces {separator : Char} : ∀ {cs : List Char},
    (pieces separator cs).getLast? = some [] → cs = [] ∨ cs.getLast? = some separator
  | [], _ => .inl rfl
  | c :: cs, h => by
    refine .inr ?_
    obtain ⟨p, ps, hp⟩ := List.exists_cons_of_ne_nil (pieces_ne_nil separator cs)
    rw [pieces] at h
    split at h
    · rename_i hc
      rw [hp, List.getLast?_cons_cons, ← hp] at h
      rcases eq_nil_or_of_getLast?_pieces h with rfl | hlast
      · rw [hc, List.getLast?_singleton]
      · rw [List.getLast?_cons, hlast]
        rfl
    · rw [hp] at h
      cases ps with
      | nil => simp at h
      | cons q qs =>
        dsimp only at h
        rw [List.getLast?_cons_cons, ← List.getLast?_cons_cons (a := p), ← hp] at h
        rcases eq_nil_or_of_getLast?_pieces h with rfl | hlast
        · cases hp
        · rw [List.getLast?_cons, hlast]
          rfl

theorem separator_notMem_of_mem_pieces {separator : Char} : ∀ {cs p : List Char},
    p ∈ pieces separator cs → separator ∉ p
  | [], p, hp => by
    rw [pieces, List.mem_singleton] at hp
    simp [hp]
  | c :: cs, p, hp => by
    rw [pieces] at hp
    split at hp
    · rcases List.mem_cons.1 hp with rfl | hp
      · exact List.not_mem_nil
      · exact separator_notMem_of_mem_pieces hp
    · rename_i hc
      cases hq : pieces separator cs with
      | nil => exact absurd hq (pieces_ne_nil separator cs)
      | cons q qs =>
        have hcs : ∀ p ∈ q :: qs, separator ∉ p :=
          fun p hp => separator_notMem_of_mem_pieces (hq ▸ hp)
        rw [hq] at hp
        rcases List.mem_cons.1 hp with rfl | hp
        · exact List.not_mem_cons_of_ne_of_not_mem (Ne.symm hc) (hcs q List.mem_cons_self)
        · exact hcs p (List.mem_cons_of_mem _ hp)

theorem isRelative_of_notMem {s : String} (h : '/' ∉ s.toList) : IsRelative s := by
  unfold IsRelative
  rw [pieces_of_notMem h]
  exact List.forall_mem_nil _

/-! ## Steps of a path -/

/-- Whether a path that goes on needs no slash. -/
def IsOpen (path : String) : Prop := path.toList = [] ∨ path.toList.getLast? = some '/'

theorem joinPath_of_absolute {base part : String} (h : part.toList.head? = some '/') :
    joinPath base part = part := by
  have hstart : part.startsWith "/" = true := by
    rw [String.startsWith_string_iff]
    cases hp : part.toList with
    | nil => simp [hp] at h
    | cons c cs =>
      rw [hp, List.head?_cons, Option.some.injEq] at h
      exact ⟨cs, by rw [h]; rfl⟩
  rw [joinPath, if_pos hstart]

theorem startsWith_eq_false {part : String} (h : part.toList.head? ≠ some '/') :
    part.startsWith "/" = false := by
  rw [Bool.eq_false_iff]
  intro hstart
  obtain ⟨rest, hrest⟩ := String.startsWith_string_iff.1 hstart
  exact h (by rw [← hrest]; rfl)

theorem isOpen_iff {path : String} : (path.isEmpty || path.endsWith "/") = true ↔ IsOpen path := by
  have hlast : path.endsWith "/" = true ↔ path.toList.getLast? = some '/' := by
    rw [String.endsWith_eq_endsWith_toSlice, String.Slice.endsWith_string_iff,
      List.getLast?_eq_some_iff]
    simp only [String.copy_toSlice]
    exact exists_congr fun _ => eq_comm
  rw [Bool.or_eq_true, IsOpen, String.isEmpty_iff, hlast, String.toList_eq_nil_iff]

theorem toList_joinPath_of_open {base part : String} (h : IsOpen base)
    (hpart : part.toList.head? ≠ some '/') :
    (joinPath base part).toList = base.toList ++ part.toList := by
  rw [joinPath, startsWith_eq_false hpart, if_neg Bool.false_ne_true, if_pos (isOpen_iff.2 h),
    String.toList_append]

theorem toList_joinPath_of_not_open {base part : String} (h : ¬ IsOpen base)
    (hpart : part.toList.head? ≠ some '/') :
    (joinPath base part).toList = base.toList ++ '/' :: part.toList := by
  rw [joinPath, startsWith_eq_false hpart, if_neg Bool.false_ne_true, if_neg (mt isOpen_iff.1 h),
    String.toList_append, String.toList_append, List.append_assoc]
  rfl

/-- A relative text is empty or starts with a name. -/
theorem IsRelative.head?_ne {s : String} (h : IsRelative s) : s.toList.head? ≠ some '/' := by
  intro hhead
  obtain ⟨cs, hcs⟩ : ∃ cs, s.toList = '/' :: cs := by
    cases hs : s.toList with
    | nil => simp [hs] at hhead
    | cons c cs => exact ⟨cs, by simpa [hs] using hhead⟩
  refine h [] ?_ rfl
  rw [hcs, pieces, if_pos rfl, List.dropLast_cons_of_ne_nil (pieces_ne_nil _ _)]
  exact List.mem_cons_self

theorem isRelative_iff_of_not_open {s : String} (h : ¬ IsOpen s) :
    IsRelative s ↔ ∀ name ∈ pieces '/' s.toList, name ≠ [] := by
  have hne := pieces_ne_nil '/' s.toList
  have hlast : (pieces '/' s.toList).getLast hne ≠ [] := fun hnil =>
    h (eq_nil_or_of_getLast?_pieces ((List.getLast?_eq_getLast_of_ne_nil hne).trans
      (congrArg some hnil)))
  unfold IsRelative
  conv_rhs => rw [← List.dropLast_append_getLast hne]
  rw [List.forall_mem_append, List.forall_mem_singleton]
  exact (and_iff_left hlast).symm

theorem isRelative_joinPath_iff {base part : String} (hbase : base ≠ "") :
    IsRelative (joinPath base part) ↔ IsRelative base ∧ IsRelative part := by
  by_cases habsolute : part.toList.head? = some '/'
  · rw [joinPath_of_absolute habsolute]
    exact ⟨fun h => absurd habsolute h.head?_ne, And.right⟩
  have hrest : ∀ names : List (List Char),
      (names ++ pieces '/' part.toList).dropLast = names ++ (pieces '/' part.toList).dropLast :=
    fun names => List.dropLast_append_of_ne_nil (pieces_ne_nil _ _)
  by_cases hopen : IsOpen base
  · obtain ⟨front, hfront⟩ : ∃ front, base.toList = front ++ ['/'] := by
      rcases hopen with hnil | hlast
      · exact absurd (String.toList_eq_nil_iff.1 hnil) hbase
      · exact List.getLast?_eq_some_iff.1 hlast
    have hpieces : (pieces '/' base.toList).dropLast = pieces '/' front := by
      rw [hfront, pieces_append_cons, pieces, List.dropLast_concat]
    unfold IsRelative
    rw [toList_joinPath_of_open hopen habsolute, hpieces, hfront, List.append_assoc,
      List.singleton_append, pieces_append_cons, hrest, List.forall_mem_append]
  · rw [isRelative_iff_of_not_open hopen]
    unfold IsRelative
    rw [toList_joinPath_of_not_open hopen habsolute, pieces_append_cons, hrest,
      List.forall_mem_append]

theorem isRelative_foldl_joinPath_iff : ∀ {parts : List String} {base : String}, base ≠ "" →
    (∀ part ∈ parts, part ≠ "") →
      (IsRelative (parts.foldl joinPath base) ↔ IsRelative base ∧ ∀ part ∈ parts, IsRelative part)
  | [], base, _, _ => by simp
  | part :: parts, base, hbase, hparts => by
    obtain ⟨hpart, hparts⟩ := List.forall_mem_cons.1 hparts
    have hne : joinPath base part ≠ "" := by
      by_cases habsolute : part.toList.head? = some '/'
      · rwa [joinPath_of_absolute habsolute]
      · intro hnil
        have hlist := congrArg String.toList hnil
        by_cases hopen : IsOpen base
        · rw [toList_joinPath_of_open hopen habsolute] at hlist
          exact hbase (String.toList_eq_nil_iff.1 (List.append_eq_nil_iff.1 hlist).1)
        · rw [toList_joinPath_of_not_open hopen habsolute] at hlist
          exact List.cons_ne_nil _ _ (List.append_eq_nil_iff.1 hlist).2
    rw [List.foldl_cons, isRelative_foldl_joinPath_iff hne hparts, isRelative_joinPath_iff hbase,
      List.forall_mem_cons, and_assoc]

/-! ## Below a base -/

/-- A name in a path that stands for the file or the directory of this name. -/
structure IsPlainName (name : String) : Prop where
  ne_empty : name ≠ ""
  ne_here : name ≠ "."
  ne_above : name ≠ ".."
  notMem : '/' ∉ name.toList

/-- A path that goes on from a base through plain names, one at least.  This is the path as a text:
one that has two slashes behind one another where this has one is another path, though both lead to
the same file. -/
def IsBelow (base path : String) : Prop :=
  ∃ names, names ≠ [] ∧ (∀ name ∈ names, IsPlainName name) ∧ path = names.foldl joinPath base

theorem IsPlainName.of_notMem {name : String} (hempty : name ≠ "") (hpoint : '.' ∉ name.toList)
    (hslash : '/' ∉ name.toList) : IsPlainName name :=
  ⟨hempty, by rintro rfl; exact hpoint (by decide), by rintro rfl; exact hpoint (by decide), hslash⟩

/-- Where a path stays the same whether or not a slash is put behind what it goes on from. -/
def SameDirectory (p q : String) : Prop :=
  ∀ part, part ≠ "" → IsRelative part → joinPath p part = joinPath q part

/-- The names in a part of a path. -/
def namesIn (part : String) : List String :=
  ((pieces '/' part.toList).filter (!·.isEmpty)).map String.ofList

theorem namesIn_ofList {cs : List Char} :
    namesIn (String.ofList cs) = ((pieces '/' cs).filter (!·.isEmpty)).map String.ofList := by
  rw [namesIn, String.toList_ofList]

theorem isPlainName_of_mem_namesIn {part name : String} (hpoint : '.' ∉ part.toList)
    (h : name ∈ namesIn part) : IsPlainName name := by
  obtain ⟨p, hp, rfl⟩ := List.mem_map.1 h
  obtain ⟨hp, hne⟩ := List.mem_filter.1 hp
  refine .of_notMem (by simpa using hne) ?_ ?_
  · rw [String.toList_ofList]
    exact fun hmem => hpoint (mem_of_mem_pieces hp hmem)
  · rw [String.toList_ofList]
    exact separator_notMem_of_mem_pieces hp

theorem not_isOpen_joinPath {base : String} {cs : List Char} (hne : cs ≠ []) (hslash : '/' ∉ cs) :
    ¬ IsOpen (joinPath base (String.ofList cs)) := by
  have hhead : (String.ofList cs).toList.head? ≠ some '/' := by
    rw [String.toList_ofList]
    exact fun h => hslash (List.mem_of_mem_head? h)
  have hlast : ∀ front : List Char, ¬ ((front ++ cs) = [] ∨ (front ++ cs).getLast? = some '/') := by
    intro front h
    rw [List.append_eq_nil_iff, List.getLast?_append_of_ne_nil _ hne] at h
    exact h.elim (fun h => hne h.2) fun h => hslash (List.mem_of_getLast? h)
  unfold IsOpen
  by_cases hopen : IsOpen base
  · rw [toList_joinPath_of_open hopen hhead, String.toList_ofList]
    exact hlast _
  · rw [toList_joinPath_of_not_open hopen hhead, String.toList_ofList, ← List.singleton_append,
      ← List.append_assoc]
    exact hlast _

/-- A path goes on through a name and then through what follows it. -/
theorem joinPath_slash {base : String} {cs rest : List Char} (hne : cs ≠ []) (hslash : '/' ∉ cs)
    (hrest : rest.head? ≠ some '/') : joinPath base (String.ofList (cs ++ '/' :: rest))
      = joinPath (joinPath base (String.ofList cs)) (String.ofList rest) := by
  have hhead : ∀ tail : List Char, (String.ofList (cs ++ tail)).toList.head? ≠ some '/' := by
    intro tail h
    rw [String.toList_ofList, List.head?_append_of_ne_nil _ hne] at h
    exact hslash (List.mem_of_mem_head? h)
  have hname : (String.ofList cs).toList.head? ≠ some '/' := by simpa using hhead []
  rw [← String.toList_inj, toList_joinPath_of_not_open (not_isOpen_joinPath hne hslash)
    (by rwa [String.toList_ofList])]
  by_cases hopen : IsOpen base
  · rw [toList_joinPath_of_open hopen (hhead _), toList_joinPath_of_open hopen hname]
    simp
  · rw [toList_joinPath_of_not_open hopen (hhead _), toList_joinPath_of_not_open hopen hname]
    simp

theorem sameDirectory_joinPath_empty {base : String} (h : ¬ IsOpen base) :
    SameDirectory (joinPath base "") base := by
  intro part hpart hrelative
  have hslash : (joinPath base "").toList = base.toList ++ ['/'] :=
    toList_joinPath_of_not_open h (by simp)
  have hopen : IsOpen (joinPath base "") := .inr (by rw [hslash, List.getLast?_concat])
  rw [← String.toList_inj, toList_joinPath_of_open hopen hrelative.head?_ne, hslash,
    toList_joinPath_of_not_open h hrelative.head?_ne, List.append_assoc, List.singleton_append]

/-- A relative part leads where the names in it do, one after the other. -/
theorem sameDirectory_namesIn : ∀ {ps : List (List Char)} {base : String} {cs : List Char},
    pieces '/' cs = ps → cs ≠ [] → IsRelative (String.ofList cs) →
      SameDirectory (joinPath base (String.ofList cs))
        ((namesIn (String.ofList cs)).foldl joinPath base)
  | [], _, cs, hps, _, _ => absurd hps (pieces_ne_nil _ cs)
  | p :: ps, base, cs, hps, hne, hrelative => by
    have hslash : '/' ∉ p := separator_notMem_of_mem_pieces (hps ▸ List.mem_cons_self)
    rcases eq_of_pieces_cons hps with ⟨rfl, rfl⟩ | ⟨rest, rfl, rfl⟩
    · rw [namesIn_ofList, hps]
      simp only [List.filter_cons, List.isEmpty_eq_false_iff.2 hne, Bool.not_false, if_true,
        List.filter_nil, List.map_cons, List.map_nil, List.foldl_cons, List.foldl_nil]
      exact fun _ _ _ => rfl
    · unfold IsRelative at hrelative
      rw [String.toList_ofList, hps, List.dropLast_cons_of_ne_nil (pieces_ne_nil _ _),
        List.forall_mem_cons] at hrelative
      obtain ⟨hp, hrelative⟩ := hrelative
      have hrest : IsRelative (String.ofList rest) := by
        unfold IsRelative
        rwa [String.toList_ofList]
      have hhead : rest.head? ≠ some '/' := by simpa using hrest.head?_ne
      have hnames : namesIn (String.ofList (p ++ '/' :: rest))
          = String.ofList p :: namesIn (String.ofList rest) := by
        rw [namesIn_ofList, namesIn_ofList, hps, List.filter_cons, List.isEmpty_eq_false_iff.2 hp]
        rfl
      rw [joinPath_slash hp hslash hhead, hnames, List.foldl_cons]
      by_cases hnil : rest = []
      · subst hnil
        exact sameDirectory_joinPath_empty (not_isOpen_joinPath hp hslash)
      · exact sameDirectory_namesIn rfl hnil hrest

theorem SameDirectory.foldl {p q : String} (h : SameDirectory p q) : ∀ {parts : List String},
    (∀ part ∈ parts, part ≠ "" ∧ IsRelative part) →
      SameDirectory (parts.foldl joinPath p) (parts.foldl joinPath q)
  | [], _ => h
  | part :: parts, hparts => by
    obtain ⟨⟨hne, hrelative⟩, -⟩ := List.forall_mem_cons.1 hparts
    rw [List.foldl_cons, List.foldl_cons, h part hne hrelative]
    exact fun _ _ _ => rfl

theorem sameDirectory_flatMap_namesIn : ∀ {parts : List String} {base : String},
    (∀ part ∈ parts, part ≠ "" ∧ IsRelative part) →
      SameDirectory (parts.foldl joinPath base) ((parts.flatMap namesIn).foldl joinPath base)
  | [], _, _ => fun _ _ _ => rfl
  | part :: parts, base, hparts => by
    obtain ⟨⟨hne, hrelative⟩, hrest⟩ := List.forall_mem_cons.1 hparts
    have hpart : SameDirectory (joinPath base part) ((namesIn part).foldl joinPath base) := by
      have hlist : part.toList ≠ [] := mt String.toList_eq_nil_iff.1 hne
      have hsame : SameDirectory (joinPath base (String.ofList part.toList))
          ((namesIn (String.ofList part.toList)).foldl joinPath base) :=
        sameDirectory_namesIn rfl hlist (by rwa [String.ofList_toList])
      rwa [String.ofList_toList] at hsame
    rw [List.foldl_cons, List.flatMap_cons, List.foldl_append]
    intro x hx hrelative
    rw [hpart.foldl hrest x hx hrelative]
    exact sameDirectory_flatMap_namesIn hrest x hx hrelative

theorem foldl_joinPath_of_absolute {parts : List String}
    (h : ∃ part ∈ parts, part.startsWith "/") (base base' : String) :
    parts.foldl joinPath base = parts.foldl joinPath base' := by
  obtain ⟨part, hpart, hstart⟩ := h
  obtain ⟨before, after, rfl⟩ := List.append_of_mem hpart
  rw [List.foldl_append, List.foldl_append, List.foldl_cons, List.foldl_cons, joinPath, joinPath,
    if_pos hstart, if_pos hstart]

/-! ## Packages -/

theorem of_mem_packageParts {package : Option String} {part : String}
    (h : part ∈ packageParts package) : part ≠ "" ∧ '.' ∉ part.toList := by
  cases package with
  | none => exact absurd h List.not_mem_nil
  | some name =>
    obtain ⟨p, hp, rfl⟩ := List.mem_map.1 h
    obtain ⟨hp, hne⟩ := List.mem_filter.1 hp
    rw [String.toList_ofList]
    exact ⟨by simpa using hne, separator_notMem_of_mem_pieces hp⟩

variable {package : Option String} {f : SourceFile} (hname : IsPlainName f.name)

include hname

theorem SourceFile.isBelow_path (h : ∀ part ∈ packageParts package, IsRelative part)
    (base : String) : IsBelow base (f.path base package) := by
  have hparts : ∀ part ∈ packageParts package, part ≠ "" ∧ IsRelative part :=
    fun part hpart => ⟨(of_mem_packageParts hpart).1, h part hpart⟩
  refine ⟨(packageParts package).flatMap namesIn ++ [f.name], by simp, ?_, ?_⟩
  · rw [List.forall_mem_append, List.forall_mem_singleton]
    refine ⟨fun name hmem => ?_, hname⟩
    obtain ⟨part, hpart, hmem⟩ := List.mem_flatMap.1 hmem
    exact isPlainName_of_mem_namesIn (of_mem_packageParts hpart).2 hmem
  · rw [List.foldl_append, List.foldl_cons, List.foldl_nil]
    exact sameDirectory_flatMap_namesIn hparts f.name hname.ne_empty
      (isRelative_of_notMem hname.notMem)

/-- A path below a base without slashes is relative, so every part that it was made of is. -/
theorem SourceFile.isRelative_of_isBelow (h : IsBelow "base" (f.path "base" package)) :
    ∀ part ∈ packageParts package, IsRelative part := by
  obtain ⟨names, -, hplain, hpath⟩ := h
  have hbase : IsRelative "base" := isRelative_of_notMem (by decide)
  have hnames := (isRelative_foldl_joinPath_iff (by decide)
    fun name hmem => (hplain name hmem).ne_empty).2
      ⟨hbase, fun name hmem => isRelative_of_notMem (hplain name hmem).notMem⟩
  have hparts : ∀ part ∈ packageParts package ++ [f.name], part ≠ "" := by
    rw [List.forall_mem_append, List.forall_mem_singleton]
    exact ⟨fun part hpart => (of_mem_packageParts hpart).1, hname.ne_empty⟩
  have hfold : f.path "base" package = (packageParts package ++ [f.name]).foldl joinPath "base" := by
    rw [List.foldl_append]
    rfl
  rw [← hpath, hfold, isRelative_foldl_joinPath_iff (by decide) hparts, List.forall_mem_append]
    at hnames
  exact hnames.2.1

omit hname

/-! ## Sources -/

/-- A disk that keeps the paths of the files written to it, the first one first. -/
def Disk.recording : Disk (StateM (List String)) where
  makeDirectory _ := pure ()
  writeFile path _ := modify (· ++ [path])

namespace Language

theorem isPlainName_fileName (language : Language) {stem : String} (h : IsPlain stem) :
    IsPlainName (language.fileName stem) := by
  have hchars : (language.fileName stem).toList
      = stem.toList ++ '.' :: language.abbreviation.toList := by
    simp [fileName]
  have hletter : ∃ c ∈ language.abbreviation.toList, c ≠ '.' := by
    cases language with
    | rust => exact ⟨'r', by decide, by decide⟩
    | typeScript => exact ⟨'t', by decide, by decide⟩
    | python => exact ⟨'p', by decide, by decide⟩
  have hother : ∀ cs : List Char, (∀ c ∈ cs, c = '.') →
      language.fileName stem ≠ String.ofList cs := by
    intro cs hcs heq
    rw [heq, String.toList_ofList] at hchars
    obtain ⟨c, hc, hne⟩ := hletter
    exact hne (hcs c (hchars ▸ List.mem_append_right _ (List.mem_cons_of_mem _ hc)))
  have hslash : '/' ∉ language.abbreviation.toList := by
    cases language <;> decide
  refine ⟨hother [] (by simp), hother ['.'] (by simp), hother ['.', '.'] (by simp), ?_⟩
  rw [hchars, List.mem_append, List.mem_cons, not_or, not_or]
  exact ⟨h.notMem (by decide +kernel), by decide, hslash⟩

/-- What the root of a package is called. -/
def indexStem : Language → String
  | .rust => "mod"
  | .typeScript => "index"
  | .python => "__init__"

theorem name_indexFile (language : Language) (l : SchemaLayout) (files : List SourceFile) :
    (language.dialect.indexFile l files).name = language.fileName language.indexStem := by
  cases language <;> rfl

theorem isPlain_indexStem (language : Language) : IsPlain language.indexStem := by
  have hchars : ∃ cs : List Char, language.indexStem = String.ofList cs
      ∧ cs.all isIdentifierRest = true := by
    cases language with
    | rust => exact ⟨['m', 'o', 'd'], rfl, by decide +kernel⟩
    | typeScript => exact ⟨['i', 'n', 'd', 'e', 'x'], rfl, by decide +kernel⟩
    | python => exact ⟨['_', '_', 'i', 'n', 'i', 't', '_', '_'], rfl, by decide +kernel⟩
  obtain ⟨cs, hcs, hall⟩ := hchars
  rw [hcs, IsPlain, String.toList_ofList]
  exact List.all_eq_true.1 hall

end Language

namespace Schema

variable {s : Schema} {config : SourceConfig} {files : List SourceFile}

/-- The names of a schema's files are plain, whatever is named in it. -/
theorem isPlainName_of_mem_sources (h : s.sources config = .ok files) :
    ∀ f ∈ files, IsPlainName f.name := by
  obtain ⟨l, units, -, hunits, rfl, -⟩ := sources_eq_ok_iff.1 h
  rw [List.forall_mem_append, List.forall_mem_singleton, Language.name_indexFile]
  refine ⟨fun f hf => ?_, Language.isPlainName_fileName _ (Language.isPlain_indexStem _)⟩
  obtain ⟨hstem, hname⟩ := SchemaLayout.plain_stem_of_mem_frontFiles hunits hf
  rw [hname]
  exact Language.isPlainName_fileName _ hstem

theorem ne_nil_of_sources (h : s.sources config = .ok files) : files ≠ [] := by
  obtain ⟨l, units, -, -, rfl, -⟩ := sources_eq_ok_iff.1 h
  exact List.concat_ne_nil _ _

/-- The paths of the files that are written for a schema below a base. -/
def written (s : Schema) (config : SourceConfig) (base : String) : List String :=
  ((s.generateBelow config .recording base).run.run []).2

theorem run_forM_recording (base : String) (package : Option String) (files : List SourceFile) :
    ∀ paths : List String,
      (files.forM fun f => ExceptT.lift (ε := SourceError)
        ((OutputManager.directory .recording base package).write f)).run.run paths
        = (.ok (), paths ++ files.map (·.path base package)) := by
  induction files with
  | nil => exact fun paths => by rw [List.map_nil, List.append_nil]; rfl
  | cons f fs ih =>
    intro paths
    rw [List.map_cons, List.append_cons]
    exact ih (paths ++ [f.path base package])

theorem run_generateBelow (h : s.sources config = .ok files) (base : String) :
    (s.generateBelow config .recording base).run.run []
      = (.ok files.length, files.map (·.path base (config.package s))) := by
  unfold generateBelow generate
  rw [h]
  have hforM := run_forM_recording base (config.package s) files []
  show ((do
    files.forM fun f => ExceptT.lift (ε := SourceError)
      ((OutputManager.directory .recording base (config.package s)).write f)
    return files.length : ExceptT SourceError (StateM (List String)) Nat).run.run []) = _
  rw [ExceptT.run_bind, StateT.run_bind, hforM]
  rfl

theorem written_of_sources (h : s.sources config = .ok files) (base : String) :
    s.written config base = files.map (·.path base (config.package s)) := by
  rw [written, run_generateBelow h]

/-- As many files are written as are generated, one at least, each where its package's directory
has its name.  All of them are below every base just if no part of the package's name has a slash
that follows no name; if a part starts with a slash, the files are the same whatever the base is. -/
theorem isBelow_written_iff (h : s.sources config = .ok files) :
    (files ≠ [] ∧ ∀ base, (s.generateBelow config .recording base).run.run []
        = (.ok files.length, s.written config base)
          ∧ s.written config base = files.map (·.path base (config.package s)))
      ∧ ((∀ base, ∀ path ∈ s.written config base, IsBelow base path)
        ↔ ∀ part ∈ packageParts (config.package s), IsRelative part)
      ∧ ((∃ part ∈ packageParts (config.package s), part.startsWith "/") →
        ∀ base base', s.written config base = s.written config base') := by
  have hwritten := written_of_sources h
  have hnames := isPlainName_of_mem_sources h
  refine ⟨⟨ne_nil_of_sources h, fun base => ⟨?_, hwritten base⟩⟩,
    ⟨fun hbelow => ?_, fun hrelative base path hpath => ?_⟩, fun habsolute base base' => ?_⟩
  · rw [run_generateBelow h, hwritten]
  · obtain ⟨f, hf⟩ := List.exists_mem_of_ne_nil files (ne_nil_of_sources h)
    refine SourceFile.isRelative_of_isBelow (hnames f hf) (hbelow "base" _ ?_)
    rw [hwritten]
    exact List.mem_map_of_mem hf
  · rw [hwritten] at hpath
    obtain ⟨f, hf, rfl⟩ := List.mem_map.1 hpath
    exact SourceFile.isBelow_path (hnames f hf) hrelative base
  · rw [hwritten, hwritten]
    refine List.map_congr_left fun f _ => ?_
    rw [SourceFile.path, SourceFile.path, packageDirectory, packageDirectory,
      foldl_joinPath_of_absolute habsolute base base']

end Schema

namespace Orders

/-- Orders are written below every base in a package of two names, and at the root in one whose name
starts with a slash. -/
theorem isBelow_written_market :
    (∀ base, ∀ path ∈ market.flatten.written ⟨.python, ⟨none⟩, some "etc.cron"⟩ base,
        IsBelow base path)
      ∧ (¬ ∀ base, ∀ path ∈ market.flatten.written ⟨.python, ⟨none⟩, some "/etc.cron"⟩ base,
        IsBelow base path)
      ∧ ∀ base base', market.flatten.written ⟨.python, ⟨none⟩, some "/etc.cron"⟩ base
        = market.flatten.written ⟨.python, ⟨none⟩, some "/etc.cron"⟩ base' := by
  have hsources : ∀ package : String, ∃ files,
      market.flatten.sources ⟨.python, ⟨none⟩, some package⟩ = .ok files :=
    fun _ => exists_sources_market
  obtain ⟨files, hfiles⟩ := hsources "etc.cron"
  obtain ⟨files', hfiles'⟩ := hsources "/etc.cron"
  have hnames := (Schema.isBelow_written_iff hfiles).2.1.2 (by decide +kernel)
  obtain ⟨-, hiff, hroot⟩ := Schema.isBelow_written_iff hfiles'
  refine ⟨hnames, fun hall => ?_, hroot (by decide +kernel)⟩
  exact absurd (hiff.1 hall) (by decide +kernel)

end Orders

end SimpleBinary
