import Mathlib.Algebra.BigOperators.Group.List.Basic
import Mathlib.Algebra.GroupWithZero.Nat
import Mathlib.Data.List.Induction
import SlsLang.Proofs.ExitStatus

namespace SlsLang

/-- The options that need nothing after them, apart from the one for help. -/
inductive Flag
  | printGrammar
  | tokens
  | tree
  | verbose
  | verboseShort
  | veryVerbose
deriving DecidableEq, Repr

namespace Flag

def spelling : Flag → String
  | printGrammar => "--print-grammar"
  | tokens => "--tokens"
  | tree => "--tree"
  | verbose => "--verbose"
  | verboseShort => "-v"
  | veryVerbose => "-vv"

/-- How much more verbose a run gets by a flag. -/
def steps : Flag → Nat
  | verbose | verboseShort => 1
  | veryVerbose => 2
  | _ => 0

end Flag

/-- Arguments that are read together. Any argument may follow an option for a grammar. -/
inductive ArgumentGroup
  | flag (flag : Flag)
  | grammar (option path : String) (isGrammar : isGrammarOption option = true)
  | source (path : String) (plain : isOption path = false)
deriving DecidableEq, Repr

namespace ArgumentGroup

def arguments : ArgumentGroup → List String
  | flag f => [f.spelling]
  | grammar option path _ => [option, path]
  | source path _ => [path]

def grammarPath? : ArgumentGroup → Option String
  | grammar _ path _ => some path
  | _ => none

def source? : ArgumentGroup → Option String
  | source path _ => some path
  | _ => none

def steps : ArgumentGroup → Nat
  | flag f => f.steps
  | _ => 0

end ArgumentGroup

namespace Options

/-- What groups of arguments ask for. -/
def ofGroups (gs : List ArgumentGroup) : Options where
  source? := (gs.filterMap ArgumentGroup.source?).getLast?
  grammar? := (gs.filterMap ArgumentGroup.grammarPath?).getLast?
  printGrammar := gs.contains (.flag .printGrammar)
  tokens := gs.contains (.flag .tokens)
  tree := gs.contains (.flag .tree)
  verbosity := min maxVerbosity (gs.map ArgumentGroup.steps).sum

/-- What one more group changes. -/
def withGroup (o : Options) : ArgumentGroup → Options
  | .flag .printGrammar => { o with printGrammar := true }
  | .flag .tokens => { o with tokens := true }
  | .flag .tree => { o with tree := true }
  | .flag .verbose => o.moreVerbose 1
  | .flag .verboseShort => o.moreVerbose 1
  | .flag .veryVerbose => o.moreVerbose 2
  | .grammar _ path _ => { o with grammar? := some path }
  | .source path _ => { o with source? := some path }

theorem withFlag?_spelling (o : Options) (f : Flag) :
    o.withFlag? f.spelling = some (o.withGroup (.flag f)) := by
  cases f <;> rfl

/-- Nothing but a flag is taken for one. -/
theorem exists_flag {o flagged : Options} {argument : String}
    (h : o.withFlag? argument = some flagged) :
    ∃ f : Flag, f.spelling = argument ∧ flagged = o.withGroup (.flag f) := by
  unfold withFlag? at h
  split at h
  · exact ⟨.printGrammar, rfl, (Option.some.inj h).symm⟩
  · exact ⟨.tokens, rfl, (Option.some.inj h).symm⟩
  · exact ⟨.tree, rfl, (Option.some.inj h).symm⟩
  · exact ⟨.verboseShort, rfl, (Option.some.inj h).symm⟩
  · exact ⟨.verbose, rfl, (Option.some.inj h).symm⟩
  · exact ⟨.veryVerbose, rfl, (Option.some.inj h).symm⟩
  · cases h

theorem ofGroups_concat (gs : List ArgumentGroup) (g : ArgumentGroup) :
    ofGroups (gs ++ [g]) = (ofGroups gs).withGroup g := by
  cases g with
  | flag f =>
    cases f <;> simp [ofGroups, withGroup, moreVerbose, ArgumentGroup.source?,
      ArgumentGroup.grammarPath?, ArgumentGroup.steps, Flag.steps] <;> omega
  | grammar option path isGrammar =>
    simp [ofGroups, withGroup, ArgumentGroup.source?, ArgumentGroup.grammarPath?,
      ArgumentGroup.steps]
  | source path plain =>
    simp [ofGroups, withGroup, ArgumentGroup.source?, ArgumentGroup.grammarPath?,
      ArgumentGroup.steps]

end Options

theorem isGrammarOption_iff (argument : String) :
    isGrammarOption argument = true ↔ argument = "-g" ∨ argument = "--grammar" := by
  simp [isGrammarOption]

/-- A flag is an option, neither one for help nor one for a grammar. -/
theorem Flag.isOption_spelling (f : Flag) : ¬ isHelpOption f.spelling = true ∧
    ¬ isGrammarOption f.spelling = true ∧ isOption f.spelling = true := by
  cases f <;> decide

theorem isOption_of_isGrammarOption {argument : String} (h : isGrammarOption argument = true) :
    ¬ isHelpOption argument = true ∧ isOption argument = true := by
  rcases (isGrammarOption_iff argument).mp h with rfl | rfl <;> decide

theorem plain_of_isOption {argument : String} (h : isOption argument = false) (o : Options) :
    ¬ isHelpOption argument = true ∧ ¬ isGrammarOption argument = true ∧
      o.withFlag? argument = none := by
  refine ⟨fun hhelp => ?_, fun hgrammar => ?_, ?_⟩
  · have hspelled : argument = "-h" ∨ argument = "--help" := by simpa [isHelpOption] using hhelp
    rcases hspelled with rfl | rfl <;> simp [isOption] at h
  · simp [(isOption_of_isGrammarOption hgrammar).2] at h
  · cases hflag : o.withFlag? argument with
    | none => rfl
    | some flagged =>
      obtain ⟨f, rfl, _⟩ := Options.exists_flag hflag
      simp [f.isOption_spelling.2.2] at h

section Reading

variable {o : Options}

/-- A group is read at once. Only a source asks that there be none yet. -/
theorem readArguments_group (g : ArgumentGroup) (rest : List String)
    (h : g.source?.isSome = true → o.source? = none) :
    readArguments o (g.arguments ++ rest) = readArguments (o.withGroup g) rest := by
  cases g with
  | flag f =>
    obtain ⟨hhelp, hgrammar, _⟩ := f.isOption_spelling
    rw [ArgumentGroup.arguments, List.singleton_append, readArguments_cons hhelp hgrammar,
      o.withFlag?_spelling]
  | grammar option path isGrammar =>
    rw [ArgumentGroup.arguments, List.cons_append, List.singleton_append, readArguments,
      if_neg (isOption_of_isGrammarOption isGrammar).1, if_pos isGrammar]
    rfl
  | source path plain =>
    obtain ⟨hhelp, hgrammar, hflag⟩ := plain_of_isOption plain o
    rw [ArgumentGroup.arguments, List.singleton_append, readArguments_cons hhelp hgrammar, hflag]
    simp [plain, h rfl, Options.withGroup]

theorem source?_withGroup (g : ArgumentGroup) :
    (o.withGroup g).source? = g.source?.or o.source? := by
  cases g with
  | flag f => cases f <;> rfl
  | _ => rfl

theorem readArguments_groups (gs : List ArgumentGroup)
    (h : o.source?.toList.length + (gs.filterMap ArgumentGroup.source?).length ≤ 1) :
    readArguments o (gs.flatMap ArgumentGroup.arguments) =
      .ok (.run (gs.foldl Options.withGroup o)) := by
  induction gs generalizing o with
  | nil => rfl
  | cons g gs ih =>
    rw [List.flatMap_cons, List.foldl_cons]
    cases hg : g.source? with
    | none =>
      rw [List.filterMap_cons_none hg] at h
      rw [readArguments_group g _ (by simp [hg])]
      exact ih (by rwa [source?_withGroup, hg])
    | some path =>
      rw [List.filterMap_cons_some hg, List.length_cons] at h
      have hnone : o.source? = none := by
        cases hs : o.source? with
        | none => rfl
        | some source =>
          rw [hs, Option.toList_some, List.length_singleton] at h
          omega
      rw [readArguments_group g _ fun _ => hnone]
      refine ih ?_
      rw [source?_withGroup, hg, Option.some_or, Option.toList_some, List.length_singleton]
      omega

theorem foldl_withGroup (gs : List ArgumentGroup) :
    gs.foldl Options.withGroup {} = Options.ofGroups gs := by
  induction gs using List.reverseRecOn with
  | nil => rfl
  | append_singleton gs g ih => rw [List.foldl_concat, ih, Options.ofGroups_concat]

/-- Whatever is read to its end is a row of groups, with a source only where there is none yet. -/
theorem exists_groups {arguments : List String} {o' : Options}
    (h : readArguments o arguments = .ok (.run o')) :
    ∃ gs : List ArgumentGroup, gs.flatMap ArgumentGroup.arguments = arguments ∧
      o.source?.toList.length + (gs.filterMap ArgumentGroup.source?).length ≤ 1 := by
  fun_induction readArguments o arguments with
  | case1 o => exact ⟨[], rfl, by cases o.source? <;> simp⟩
  | case2 o argument rest hhelp => cases h
  | case3 o argument hhelp hgrammar => cases h
  | case4 o argument hhelp hgrammar path rest ih =>
    obtain ⟨gs, rfl, hsources⟩ := ih h
    exact ⟨.grammar argument path hgrammar :: gs, rfl, hsources⟩
  | case5 o argument rest hhelp hgrammar flagged hflag ih =>
    obtain ⟨f, rfl, rfl⟩ := Options.exists_flag hflag
    obtain ⟨gs, rfl, hsources⟩ := ih h
    rw [source?_withGroup] at hsources
    exact ⟨.flag f :: gs, rfl, hsources⟩
  | case6 o argument rest hhelp hgrammar hflag hoption => cases h
  | case7 o argument rest hhelp hgrammar hflag hoption hsource => cases h
  | case8 o argument rest hhelp hgrammar hflag hoption hsource ih =>
    obtain ⟨gs, rfl, hsources⟩ := ih h
    have hnone : o.source? = none := by simpa using hsource
    refine ⟨.source argument (by simpa using hoption) :: gs, rfl, ?_⟩
    simpa [hnone, ArgumentGroup.source?, Nat.add_comm] using hsources

end Reading

section Grouping

theorem Flag.spelling_injective : Function.Injective Flag.spelling := by
  intro f f' h
  cases f <;> cases f' <;> first | rfl | simp [spelling] at h

/-- Rows that start with the same argument start with the same group. -/
theorem eq_of_arguments_append {g g' : ArgumentGroup} {rest rest' : List String}
    (h : g.arguments ++ rest = g'.arguments ++ rest') : g = g' ∧ rest = rest' := by
  -- The first argument tells a flag, an option for a grammar and a source from each other.
  cases g with
  | flag f =>
    obtain ⟨_, hgrammar, hoption⟩ := f.isOption_spelling
    cases g' with
    | flag f' =>
      obtain ⟨hf, hrest⟩ := List.cons.inj h
      exact ⟨congrArg _ (Flag.spelling_injective hf), hrest⟩
    | grammar option path isGrammar => exact (hgrammar ((List.cons.inj h).1 ▸ isGrammar)).elim
    | source path plain =>
      rw [(List.cons.inj h).1, plain] at hoption
      cases hoption
  | grammar option path isGrammar =>
    cases g' with
    | flag f' =>
      exact (f'.isOption_spelling.2.1 ((List.cons.inj h).1 ▸ isGrammar)).elim
    | grammar option' path' isGrammar' =>
      obtain ⟨rfl, htail⟩ := List.cons.inj h
      obtain ⟨rfl, hrest⟩ := List.cons.inj htail
      exact ⟨rfl, hrest⟩
    | source path' plain =>
      have hoption := (isOption_of_isGrammarOption isGrammar).2
      rw [(List.cons.inj h).1, plain] at hoption
      cases hoption
  | source path plain =>
    cases g' with
    | flag f' =>
      rw [(List.cons.inj h).1, f'.isOption_spelling.2.2] at plain
      cases plain
    | grammar option path' isGrammar =>
      rw [(List.cons.inj h).1, (isOption_of_isGrammarOption isGrammar).2] at plain
      cases plain
    | source path' plain' =>
      obtain ⟨rfl, hrest⟩ := List.cons.inj h
      exact ⟨rfl, hrest⟩

/-- A row of arguments falls into groups in one way at most. -/
theorem flatMap_arguments_injective :
    Function.Injective fun gs : List ArgumentGroup => gs.flatMap ArgumentGroup.arguments := by
  intro gs gs' h
  induction gs generalizing gs' with
  | nil =>
    cases gs' with
    | nil => rfl
    | cons g' gs' => cases g' <;> simp [ArgumentGroup.arguments] at h
  | cons g gs ih =>
    cases gs' with
    | nil => cases g <;> simp [ArgumentGroup.arguments] at h
    | cons g' gs' =>
      obtain ⟨rfl, hrest⟩ := eq_of_arguments_append h
      rw [ih hrest]

end Grouping

section Orders

variable {gs gs' : List ArgumentGroup}

theorem ofGroups_perm (hperm : gs.Perm gs')
    (hpaths : gs.filterMap ArgumentGroup.grammarPath? = gs'.filterMap ArgumentGroup.grammarPath?)
    (hsources : (gs.filterMap ArgumentGroup.source?).length ≤ 1) :
    Options.ofGroups gs = Options.ofGroups gs' := by
  have hsource : gs.filterMap ArgumentGroup.source? = gs'.filterMap ArgumentGroup.source? := by
    have hboth := hperm.filterMap ArgumentGroup.source?
    cases hs : gs.filterMap ArgumentGroup.source? with
    | nil => rw [hs] at hboth; exact hboth.nil_eq
    | cons path paths =>
      obtain rfl : paths = [] := by simpa [hs] using hsources
      rw [hs] at hboth
      exact (List.perm_singleton.mp hboth.symm).symm
  have hflag : ∀ g, gs.contains g = gs'.contains g := fun g => by
    rw [Bool.eq_iff_iff, List.contains_iff_mem, List.contains_iff_mem, hperm.mem_iff]
  have hsteps : (gs.map ArgumentGroup.steps).sum = (gs'.map ArgumentGroup.steps).sum :=
    (hperm.map ArgumentGroup.steps).sum_eq
  simp only [Options.ofGroups, hsource, hpaths, hflag, hsteps]

end Orders

/-- Arguments are read group by group, and the order of the groups does not matter. However groups with
one source at most are put in order, the options they give are the same, as long as the paths for a
grammar come in the same order: the last of them counts, and the steps to a higher verbosity add up.
What is read to its end at all falls into such groups, in one way. -/
theorem parseArguments_groups :
    (∀ gs : List ArgumentGroup, (gs.filterMap ArgumentGroup.source?).length ≤ 1 →
      parseArguments (gs.flatMap ArgumentGroup.arguments) = .ok (.run (.ofGroups gs)) ∧
      ∀ gs' : List ArgumentGroup, gs.Perm gs' →
        gs.filterMap ArgumentGroup.grammarPath? = gs'.filterMap ArgumentGroup.grammarPath? →
        parseArguments (gs'.flatMap ArgumentGroup.arguments) = .ok (.run (.ofGroups gs))) ∧
    ∀ (arguments : List String) (o : Options), parseArguments arguments = .ok (.run o) →
      ∃! gs : List ArgumentGroup, gs.flatMap ArgumentGroup.arguments = arguments ∧
        (gs.filterMap ArgumentGroup.source?).length ≤ 1 ∧ Options.ofGroups gs = o := by
  have hread : ∀ gs : List ArgumentGroup, (gs.filterMap ArgumentGroup.source?).length ≤ 1 →
      parseArguments (gs.flatMap ArgumentGroup.arguments) = .ok (.run (.ofGroups gs)) := by
    intro gs hsources
    rw [parseArguments, readArguments_groups gs (by simpa using hsources), foldl_withGroup]
  refine ⟨fun gs hsources => ⟨hread gs hsources, fun gs' hperm hpaths => ?_⟩,
    fun arguments o h => ?_⟩
  · have hsources' := (hperm.filterMap ArgumentGroup.source?).length_eq
    rw [hread gs' (hsources' ▸ hsources), ofGroups_perm hperm hpaths hsources]
  · obtain ⟨gs, rfl, hsources⟩ := exists_groups h
    replace hsources : (gs.filterMap ArgumentGroup.source?).length ≤ 1 := by simpa using hsources
    rw [hread gs hsources] at h
    cases h
    exact ⟨gs, ⟨rfl, hsources, rfl⟩, fun gs' h' => flatMap_arguments_injective h'.1⟩

end SlsLang
