import Mathlib
import SimpleBinary.Proofs.Imports
import SimpleBinary.Source.Output

/-!
# What is generated

Files are handed to an output manager only when there are files, and there are none if a name has
no identifier for one of its uses (`SchemaLayout.accepts_of_sourceUnits`).  Files in memory are
found by their names, the files of a package before those that were there
(`SourceFile.find?_foldl_insert`).
-/

namespace SimpleBinary

/-! ## Names -/

namespace SchemaLayout

/-- What the names in a layout are used for in sources: the name of a message and the names in it,
the names of types that the layout mentions, and the names in types that files are written for. -/
inductive Uses (l : SchemaLayout) : NameRole × String → Prop
  | message {m : MessageLayout} {p : NameRole × String} : m ∈ l.messages → p ∈ m.uses → l.Uses p
  | type {name : String} {p : NameRole × String} :
    l.Mentions name → p ∈ fileUses name → l.Uses p
  | inside {t : TypeLayout} {p : NameRole × String} :
    t ∈ l.sourceTypes → p ∈ t.innerUses → l.Uses p

/-- Where units are named, every name has an identifier for each of its uses. -/
theorem accepts_of_sourceUnits {s : Schema} {l : SchemaLayout} {n : Namer}
    {units : List SourceUnit} (hl : resolve s = .ok l) (h : l.sourceUnits n = .ok units)
    {p : NameRole × String} (hp : l.Uses p) : ∃ spelled, n.identifier p.1 p.2 = .ok spelled := by
  obtain ⟨types, messages, htypes, hmessages, -⟩ := sourceUnits_eq_ok_iff.1 h
  have htype : ∀ t ∈ l.sourceTypes, n.Accepts t.uses := by
    intro t ht
    obtain ⟨u, hu⟩ := exists_of_mapM htypes ht
    exact (Namer.isUnit_of_typeUnit hu).2.2
  cases hp with
  | message hm hp =>
    obtain ⟨u, hu⟩ := exists_of_mapM hmessages hm
    exact (Namer.isUnit_of_message hu).2.2 p hp
  | type hname hp =>
    obtain ⟨t, ht, rfl⟩ := (mentions_iff hl).1 hname
    exact htype t ht p (List.mem_append_left _ hp)
  | inside ht hp => exact htype _ ht p (List.mem_append_right _ hp)

end SchemaLayout

/-- A name without an identifier leaves no files. -/
theorem Schema.exists_sources_eq_error {s : Schema} {l : SchemaLayout} {config : SourceConfig}
    (hl : SchemaLayout.resolve s = .ok l) {p : NameRole × String} (hp : l.Uses p)
    (hrefused : ∀ spelled, config.namer.identifier p.1 p.2 ≠ .ok spelled) :
    ∃ e, s.sources config = .error (.name e) := by
  cases hunits : l.sourceUnits config.namer with
  | error e =>
    refine ⟨e, ?_⟩
    unfold Schema.sources
    rw [hl]
    show Except.mapError SourceError.name (l.sourceFiles config.namer) >>= _ = _
    unfold SchemaLayout.sourceFiles
    rw [hunits]
    rfl
  | ok units =>
    obtain ⟨spelled, hspelled⟩ := SchemaLayout.accepts_of_sourceUnits hl hunits hp
    exact absurd hspelled (hrefused spelled)

/-! ## Files by name -/

namespace SourceFile

/-- Of its name a file is the one that was put there, of any other name what was there before. -/
theorem find?_insert (f : SourceFile) (name : String) : ∀ files : List SourceFile,
    (insert files f).find? (·.name == name)
      = if f.name = name then some f else files.find? (·.name == name)
  | [] => by
    by_cases h : f.name = name
    · simp [insert, h]
    · simp [insert, h]
  | g :: gs => by
    rw [insert]
    split
    · by_cases h : f.name = name
      · simp [h]
      · simp [h]
    · split
      · rename_i hsame
        by_cases h : f.name = name
        · simp [h]
        · simp [h, ← hsame]
      · rename_i hother
        rw [List.find?_cons, List.find?_cons, find?_insert f name gs]
        by_cases h : g.name = name
        · have hne : f.name ≠ name := fun hf => hother (hf.trans h.symm)
          simp [h, hne]
        · simp [beq_false_of_ne h]

theorem find?_foldl_insert (name : String) : ∀ {files before : List SourceFile},
    (files.map (·.name)).Nodup →
      (files.foldl insert before).find? (·.name == name)
        = (files.find? (·.name == name)).or (before.find? (·.name == name))
  | [], before, _ => by simp
  | f :: fs, before, h => by
    rw [List.map_cons, List.nodup_cons] at h
    rw [List.foldl_cons, find?_foldl_insert name h.2, find?_insert, List.find?_cons]
    by_cases hname : f.name = name
    · have hfresh : fs.find? (·.name == name) = none := by
        rw [List.find?_eq_none]
        intro g hg hgname
        rw [beq_iff_eq] at hgname
        exact h.1 (List.mem_map.2 ⟨g, hg, hgname.trans hname.symm⟩)
      simp [hname, hfresh]
    · simp [hname, beq_false_of_ne hname]

end SourceFile

/-! ## Generation -/

namespace Schema

variable {s : Schema} {config : SourceConfig}

/-- Without files nothing is handed over. -/
theorem run_generate_of_error {e : SourceError} (h : s.sources config = .error e)
    {m : Type → Type} [Monad m] [LawfulMonad m] (out : OutputManager m) :
    (s.generate config out).run = pure (.error e) := by
  unfold generate
  rw [h]
  simp

theorem run_forM_memory (files : List SourceFile) : ∀ before : List SourceFile,
    (files.forM fun f =>
      ExceptT.lift (ε := SourceError) (OutputManager.memory.write f)).run.run before
      = (.ok (), files.foldl SourceFile.insert before) := by
  induction files with
  | nil => exact fun before => rfl
  | cons f fs ih =>
    intro before
    exact ih (SourceFile.insert before f)

theorem run_generate_memory {files : List SourceFile} (h : s.sources config = .ok files)
    (before : List SourceFile) : (s.generate config .memory).run.run before
      = (.ok files.length, files.foldl SourceFile.insert before) := by
  unfold generate
  rw [h]
  have hforM := run_forM_memory files before
  show ((do
    files.forM fun f => ExceptT.lift (ε := SourceError) (OutputManager.memory.write f)
    return files.length : ExceptT SourceError (StateM (List SourceFile)) Nat).run.run before) = _
  rw [ExceptT.run_bind, StateT.run_bind, hforM]
  rfl

/-- A name that has no identifier for one of its uses is found before anything is written, whatever
files are written to.  Generation into memory writes as many files as it says, each of a name of its
own, and leaves all other files as they were. -/
theorem generate_complete {l : SchemaLayout} (hl : SchemaLayout.resolve s = .ok l)
    (config : SourceConfig) :
    (∀ p, l.Uses p → (∀ spelled, config.namer.identifier p.1 p.2 ≠ .ok spelled) →
        ∃ e, ∀ (m : Type → Type) [Monad m] [LawfulMonad m] (out : OutputManager m),
          (s.generate config out).run = pure (.error (.name e)))
      ∧ ∀ before n after, (s.generate config .memory).run.run before = (.ok n, after) →
        ∃ files, s.sources config = .ok files ∧ files.length = n ∧ (files.map (·.name)).Nodup
          ∧ ∀ name, after.find? (·.name == name)
            = (files.find? (·.name == name)).or (before.find? (·.name == name)) := by
  constructor
  · intro p hp hrefused
    obtain ⟨e, he⟩ := exists_sources_eq_error hl hp hrefused
    exact ⟨e, fun m _ _ out => run_generate_of_error he out⟩
  · intro before n after hrun
    cases hfiles : s.sources config with
    | error e =>
      rw [run_generate_of_error hfiles] at hrun
      cases hrun
    | ok files =>
      rw [run_generate_memory hfiles] at hrun
      cases hrun
      obtain ⟨-, -, -, -, -, hnone⟩ := sources_eq_ok_iff.1 hfiles
      have hnodup := (nodup_of_repeatedName? hnone).1
      exact ⟨files, rfl, rfl, hnodup, fun name => SourceFile.find?_foldl_insert name hnodup⟩

end Schema

namespace Orders

/-- A symbol cannot be a member in TypeScript, so nothing is written; in Python all files of orders
are. -/
theorem generate_complete_market :
    (∃ e, ∀ before, (market.flatten.generate ⟨.typeScript, ⟨none⟩, none⟩ .memory).run.run before
        = (.error (.name e), before))
      ∧ ∃ files after, market.flatten.sources ⟨.python, ⟨none⟩, none⟩ = .ok files
        ∧ (market.flatten.generate ⟨.python, ⟨none⟩, none⟩ .memory).run.run []
          = (.ok files.length, after)
        ∧ ∀ name, after.find? (·.name == name) = files.find? (·.name == name) := by
  constructor
  · have hsymbol : marketLayout.Uses (.member, "symbol") :=
      .message (m := definedMessage) List.mem_cons_self (by decide +kernel)
    have hrefused : ∀ spelled,
        Namer.identifier ⟨.typeScript, ⟨none⟩⟩ .member "symbol" ≠ .ok spelled := by
      intro spelled h
      have hnone : (Namer.identifier ⟨.typeScript, ⟨none⟩⟩ .member "symbol").toOption = none := by
        decide +kernel
      rw [h] at hnone
      cases hnone
    obtain ⟨e, he⟩ := (Schema.generate_complete resolve_market
      ⟨.typeScript, ⟨none⟩, none⟩).1 _ hsymbol hrefused
    refine ⟨e, fun before => ?_⟩
    rw [he]
    rfl
  · obtain ⟨files, hfiles⟩ := exists_sources_market
    have hrun := Schema.run_generate_memory hfiles []
    obtain ⟨files', hfiles', -, -, hfind⟩ := (Schema.generate_complete resolve_market
      ⟨.python, ⟨none⟩, none⟩).2 _ _ _ hrun
    rw [hfiles] at hfiles'
    cases hfiles'
    refine ⟨files, _, hfiles, hrun, fun name => ?_⟩
    rw [hfind, List.find?_nil, Option.or_none]

end Orders

end SimpleBinary
