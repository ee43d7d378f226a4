import SlsLang.CommandLine
import SlsLang.Proofs.DiagnosticOrder
import SlsLang.Proofs.TokenPlaces

namespace SlsLang

/-- The path holds a grammar table. -/
def Disk.HoldsTable (disk : Disk) (host : Host) (path : String) (table : GrammarTable) : Prop :=
  ∃ text, disk.read path = .ok text ∧ GrammarTable.readBy host.document? text = .ok table

/-- The path names a source file that can be read. -/
structure Disk.HoldsSource (disk : Disk) (path file text : String) : Prop where
  named : path ≠ ""
  absolute : file = absolutePath disk.workingDirectory path
  read : disk.read file = .ok text

/-- The path of the grammar table that a run has to load: the one that is given, or else the default
one where something is found at its path. -/
inductive GrammarDue (disk : Disk) (o : Options) : String → Prop
  | given {path : String} (path_ : o.grammar? = some path) : GrammarDue disk o path
  | default (free : o.grammar? = none) (present : disk.isPresent defaultGrammar = true) :
      GrammarDue disk o defaultGrammar

/-- What the mode of a run finds wrong with a source. -/
def Options.recorded (o : Options) (file text : String) : List Diagnostic :=
  if o.tokens then spellingFaults file text else (compile file text).diagnostics

/-- Why a run with these options fails. -/
inductive RunFails (host : Host) (disk : Disk) (o : Options) : Prop
  | grammar {path : String} (due : GrammarDue disk o path)
      (none : ∀ table, ¬ disk.HoldsTable host path table)
  | source (none : ∀ file text, ¬ disk.HoldsSource o.source file text)
  | diagnostics {file text : String} (source : disk.HoldsSource o.source file text)
      (recorded : o.recorded file text ≠ [])

/-- A run with these options comes to a diagnostic whose caret stands further out than lines can be
padded. -/
inductive RunBreaksOff (host : Host) (disk : Disk) (o : Options) : Prop
  | caret {file text : String} {d : Diagnostic} {bound : Nat}
      (tables : ∀ path, GrammarDue disk o path → ∃ table, disk.HoldsTable host path table)
      (source : disk.HoldsSource o.source file text) (recorded : d ∈ o.recorded file text)
      (bounded : host.maxPadding? = some bound) (further : bound < d.place.column - 1)

/-- Lines can be padded as far as the lines of a text go. -/
def Host.Spans (host : Host) (text : String) : Prop :=
  ∀ bound, host.maxPadding? = some bound →
    ∀ line, line <:+: sourceChars text → '\n' ∉ line → line.length ≤ bound

/-- What a run prints of its grammar table: nothing unless that is asked for and there is one. -/
inductive PrintsGrammar (host : Host) (disk : Disk) (o : Options) : String → Prop
  | table {path : String} {table : GrammarTable} (asked : o.printGrammar = true)
      (due : GrammarDue disk o path) (holds : disk.HoldsTable host path table) :
      PrintsGrammar host disk o table.render
  | unasked (unasked : o.printGrammar = false) : PrintsGrammar host disk o ""
  | absent (none : ∀ path, ¬ GrammarDue disk o path) : PrintsGrammar host disk o ""

/-- The options with the tokens asked for. -/
def Options.withTokens (o : Options) : Options := { o with tokens := true }

def Command.withTokens : Command → Command
  | .run o => .run o.withTokens
  | .help => .help

section Loading

variable {host : Host} {disk : Disk} {o : Options} {path file text : String} {table : GrammarTable}

theorem loadTable_eq_ok_iff :
    disk.loadTable host path = .ok table ↔ disk.HoldsTable host path table := by
  rw [Disk.loadTable, Disk.HoldsTable]
  cases disk.read path with
  | error fault => simp
  | ok text => cases hread : GrammarTable.readBy host.document? text <;> simp [hread]

theorem readSource_eq_ok_iff :
    disk.readSource path = .ok (file, text) ↔ disk.HoldsSource path file text := by
  rw [Disk.readSource]
  split
  next h => exact ⟨fun hsource => by simp at hsource, fun hsource => absurd h hsource.named⟩
  next h =>
    have hpair : (disk.read (absolutePath disk.workingDirectory path)).map
        (fun text => (absolutePath disk.workingDirectory path, text)) = .ok (file, text) ↔
        file = absolutePath disk.workingDirectory path ∧
          disk.read (absolutePath disk.workingDirectory path) = .ok text := by
      cases disk.read (absolutePath disk.workingDirectory path) <;>
        simp [Except.map, Prod.ext_iff, eq_comm]
    rw [hpair]
    constructor
    · rintro ⟨rfl, hread⟩
      exact ⟨h, rfl, hread⟩
    · rintro ⟨-, rfl, hread⟩
      exact ⟨rfl, hread⟩

theorem Disk.HoldsSource.unique {file' text' : String} (h : disk.HoldsSource path file text)
    (h' : disk.HoldsSource path file' text') : file' = file ∧ text' = text := by
  have hsame := (readSource_eq_ok_iff.mpr h').symm.trans (readSource_eq_ok_iff.mpr h)
  simpa using hsame

/-- A grammar table that is due is loaded from its path. -/
theorem loadGrammar_of_due (h : GrammarDue disk o path) :
    disk.loadGrammar host o = (disk.loadTable host path).map some := by
  cases h with
  | given given => simp [Disk.loadGrammar, Options.grammarPath, given]
  | default free present => simp [Disk.loadGrammar, Options.grammarPath, free, present]

theorem loadGrammar_of_none (h : ∀ path, ¬ GrammarDue disk o path) :
    disk.loadGrammar host o = .ok none := by
  have hfree : o.grammar? = none := by
    cases hgrammar : o.grammar? with
    | none => rfl
    | some path => exact absurd (.given hgrammar) (h path)
  have hmissing : disk.isPresent defaultGrammar = false :=
    Bool.eq_false_iff.mpr fun hpresent => h defaultGrammar (.default hfree hpresent)
  simp [Disk.loadGrammar, hfree, hmissing]

/-- The grammar table is all that can keep a run from reading its source. -/
theorem loadGrammar_fails_iff : (∃ fault, disk.loadGrammar host o = .error fault) ↔
    ∃ path, GrammarDue disk o path ∧ ∀ table, ¬ disk.HoldsTable host path table := by
  constructor
  · rintro ⟨fault, hfault⟩
    by_cases hdue : ∃ path, GrammarDue disk o path
    · obtain ⟨path, hdue⟩ := hdue
      refine ⟨path, hdue, fun table htable => ?_⟩
      rw [loadGrammar_of_due hdue, loadTable_eq_ok_iff.mpr htable] at hfault
      cases hfault
    · rw [loadGrammar_of_none (not_exists.mp hdue)] at hfault
      cases hfault
  · rintro ⟨path, hdue, hnone⟩
    rw [loadGrammar_of_due hdue]
    cases hload : disk.loadTable host path with
    | error fault => exact ⟨fault, rfl⟩
    | ok table => exact absurd (loadTable_eq_ok_iff.mp hload) (hnone table)

theorem holdsTable_of_loaded {table? : Option GrammarTable}
    (h : disk.loadGrammar host o = .ok table?) (hdue : GrammarDue disk o path) :
    ∃ table, disk.HoldsTable host path table := by
  by_contra hnone
  obtain ⟨fault, hfault⟩ := loadGrammar_fails_iff.mpr ⟨path, hdue, not_exists.mp hnone⟩
  simp [h] at hfault

theorem readSource_fails_iff : (∃ fault, disk.readSource path = .error fault) ↔
    ∀ file text, ¬ disk.HoldsSource path file text := by
  constructor
  · rintro ⟨fault, hfault⟩ file text hsource
    rw [readSource_eq_ok_iff.mpr hsource] at hfault
    cases hfault
  · intro hnone
    cases hread : disk.readSource path with
    | error fault => exact ⟨fault, rfl⟩
    | ok source => exact absurd (readSource_eq_ok_iff.mp hread) (hnone source.1 source.2)

theorem printsGrammar_of_loaded {table? : Option GrammarTable}
    (h : disk.loadGrammar host o = .ok table?) :
    PrintsGrammar host disk o (o.printed table?).1 := by
  cases hasked : o.printGrammar with
  | false =>
    have hprinted : (o.printed table?).1 = "" := by simp [Options.printed, hasked]
    exact hprinted ▸ .unasked hasked
  | true =>
    by_cases hdue : ∃ path, GrammarDue disk o path
    · obtain ⟨path, hdue⟩ := hdue
      rw [loadGrammar_of_due hdue] at h
      cases hload : disk.loadTable host path with
      | error fault =>
        rw [hload] at h
        cases h
      | ok table =>
        rw [hload] at h
        cases h
        have hprinted : (o.printed (some table)).1 = table.render := by
          simp [Options.printed, hasked]
        exact hprinted ▸ .table hasked hdue (loadTable_eq_ok_iff.mp hload)
    · rw [loadGrammar_of_none (not_exists.mp hdue)] at h
      cases h
      have hprinted : (o.printed none).1 = "" := by simp [Options.printed, hasked]
      exact hprinted ▸ .absent (not_exists.mp hdue)

theorem diagnostics_report (o : Options) (file text : String) :
    (o.report file text).diagnostics = o.recorded file text := by
  rw [Options.report, Options.recorded]
  split <;> rfl

end Loading

section Breaking

variable {host : Host} {disk : Disk} {o : Options} {file text : String}

theorem pads_iff {d : Diagnostic} : host.pads d = true ↔
    ∀ bound, host.maxPadding? = some bound → d.place.column - 1 ≤ bound := by
  rw [Host.pads]
  cases host.maxPadding? <;> simp

/-- Only a run that has something to report can break off. -/
theorem RunBreaksOff.fails (h : RunBreaksOff host disk o) : RunFails host disk o := by
  obtain ⟨-, hsource, hd, -, -⟩ := h
  exact .diagnostics hsource (List.ne_nil_of_mem hd)

theorem Host.spans_of_unbounded (h : host.maxPadding? = none) (text : String) :
    host.Spans text := by
  intro bound hbounded
  simp [h] at hbounded

theorem exists_reading_of_recorded {d : Diagnostic} (h : d ∈ o.recorded file text) :
    ∃ r ∈ (Lexer.start file text).readings, d.place = r.token.place := by
  rw [Options.recorded] at h
  split at h
  · obtain ⟨r, hr, hd⟩ := List.mem_flatMap.mp h
    exact ⟨r, hr, (place_of_mem_diagnostics hd).2⟩
  · exact place_of_mem_recognize h

/-- No caret stands further out than the lines of the source go. -/
theorem not_runBreaksOff
    (h : ∀ file text, disk.HoldsSource o.source file text → host.Spans text) :
    ¬ RunBreaksOff host disk o := by
  rintro ⟨-, hsource, hd, hbounded, hfurther⟩
  obtain ⟨r, hr, hplace⟩ := exists_reading_of_recorded hd
  obtain ⟨p, hstands⟩ := exists_standsAt_of_mem hr
  obtain ⟨line, hinfix, hnewline, hcolumn⟩ := hstands.exists_line
  have hfits := h _ _ hsource _ hbounded line hinfix hnewline
  rw [hplace, hcolumn] at hfurther
  omega

/-- Once grammar table and source are there, a run breaks off exactly if it cannot write all of its
diagnostics. -/
theorem runBreaksOff_iff
    (htables : ∀ path, GrammarDue disk o path → ∃ table, disk.HoldsTable host path table)
    (hsource : disk.HoldsSource o.source file text) :
    RunBreaksOff host disk o ↔ (host.write (o.recorded file text)).2 = false := by
  rw [Host.write_whole, List.all_eq_false]
  constructor
  · rintro ⟨-, hother, hd, hbounded, hfurther⟩
    obtain ⟨rfl, rfl⟩ := hsource.unique hother
    exact ⟨_, hd, fun hpads => absurd (pads_iff.mp hpads _ hbounded) (Nat.not_le.mpr hfurther)⟩
  · rintro ⟨d, hd, hpads⟩
    rw [pads_iff] at hpads
    push Not at hpads
    obtain ⟨bound, hbounded, hfurther⟩ := hpads
    exact .caret htables hsource hd hbounded hfurther

end Breaking

section Running

variable (host : Host) (disk : Disk) (o : Options)

/-- A run comes to its end with one of three numbers, which tells whether it failed, and whether it
broke off. -/
theorem runOptions_exit :
    ((runOptions host o disk).exit = 0 ∧ ¬ RunFails host disk o) ∨
      ((runOptions host o disk).exit = 1 ∧ RunFails host disk o ∧ ¬ RunBreaksOff host disk o) ∨
      ((runOptions host o disk).exit = brokenOffExit ∧ RunBreaksOff host disk o) := by
  rw [runOptions]
  cases hgrammar : disk.loadGrammar host o with
  | error fault =>
    obtain ⟨path, hdue, hnone⟩ := loadGrammar_fails_iff.mp ⟨fault, hgrammar⟩
    refine .inr (.inl ⟨rfl, .grammar hdue hnone, ?_⟩)
    rintro ⟨htables, -, -, -, -⟩
    obtain ⟨table, htable⟩ := htables path hdue
    exact hnone table htable
  | ok table? =>
    have htables : ∀ path, GrammarDue disk o path → ∃ table, disk.HoldsTable host path table :=
      fun path hdue => holdsTable_of_loaded hgrammar hdue
    cases hread : disk.readSource o.source with
    | error fault =>
      have hnone := readSource_fails_iff.mp ⟨fault, hread⟩
      refine .inr (.inl ⟨rfl, .source hnone, ?_⟩)
      rintro ⟨-, hsource, -, -, -⟩
      exact hnone _ _ hsource
    | ok source =>
      have hsource := readSource_eq_ok_iff.mp hread
      have hbreaks := runBreaksOff_iff htables hsource
      simp only [diagnostics_report]
      cases hwhole : (host.write (o.recorded source.1 source.2)).2 with
      | false => exact .inr (.inr ⟨rfl, hbreaks.mpr hwhole⟩)
      | true =>
        have hruns : ¬ RunBreaksOff host disk o := by simp [hbreaks, hwhole]
        cases hrecorded : o.recorded source.1 source.2 with
        | cons d ds => exact .inr (.inl ⟨rfl, .diagnostics hsource (by simp [hrecorded]), hruns⟩)
        | nil =>
          refine .inl ⟨rfl, ?_⟩
          rintro (⟨hdue, hnone⟩ | hnone | ⟨hother, hfound⟩)
          · obtain ⟨table, htable⟩ := htables _ hdue
            exact hnone table htable
          · exact hnone _ _ hsource
          · obtain ⟨rfl, rfl⟩ := hsource.unique hother
            exact hfound hrecorded

theorem runOptions_exit_iff :
    ((runOptions host o disk).exit = 0 ↔ ¬ RunFails host disk o) ∧
      ((runOptions host o disk).exit = 1 ↔ RunFails host disk o ∧ ¬ RunBreaksOff host disk o) ∧
      ((runOptions host o disk).exit = brokenOffExit ↔ RunBreaksOff host disk o) := by
  rcases runOptions_exit host disk o with ⟨hexit, hsound⟩ | ⟨hexit, hfails, hruns⟩ | ⟨hexit, hbreaks⟩
  · exact ⟨iff_of_true hexit hsound, iff_of_false (by simp [hexit]) fun h => hsound h.1,
      iff_of_false (by simp [hexit, brokenOffExit]) fun h => hsound h.fails⟩
  · exact ⟨iff_of_false (by simp [hexit]) (not_not_intro hfails), iff_of_true hexit ⟨hfails, hruns⟩,
      iff_of_false (by simp [hexit, brokenOffExit]) hruns⟩
  · exact ⟨iff_of_false (by simp [hexit, brokenOffExit]) (not_not_intro hbreaks.fails),
      iff_of_false (by simp [hexit, brokenOffExit]) fun h => h.2 hbreaks, iff_of_true hexit hbreaks⟩

/-- Once grammar table and source are there, a run that recognizes prints the table, the notices,
the dump and the diagnostics, in this order. -/
theorem runOptions_stdout {file text : String} (htree : o.tokens = false)
    (htables : ∀ path, GrammarDue disk o path → ∃ table, disk.HoldsTable host path table)
    (hsource : disk.HoldsSource o.source file text) (hruns : ¬ RunBreaksOff host disk o) :
    ∃ printed, PrintsGrammar host disk o printed ∧ (runOptions host o disk).stdout =
      printed ++ (compile file text).notices ++ (if o.tree then (compile file text).dump else "") ++
        Diagnostic.render (compile file text).diagnostics := by
  cases hload : disk.loadGrammar host o with
  | error fault =>
    obtain ⟨path, hdue, hnone⟩ := loadGrammar_fails_iff.mp ⟨fault, hload⟩
    obtain ⟨table, htable⟩ := htables path hdue
    exact absurd htable (hnone table)
  | ok table? =>
    refine ⟨(o.printed table?).1, printsGrammar_of_loaded hload, ?_⟩
    have hreport : o.report file text = treeReport o.tree file text := by
      simp [Options.report, htree]
    have hrecorded : o.recorded file text = (compile file text).diagnostics := by
      simp [Options.recorded, htree]
    have hwhole : (host.write (compile file text).diagnostics).2 = true := by
      rw [runBreaksOff_iff htables hsource, hrecorded] at hruns
      simpa using hruns
    have hwritten := Host.write_text (Host.write_whole.symm.trans hwhole)
    rw [runOptions, hload]
    simp only [readSource_eq_ok_iff.mpr hsource, hreport, treeReport, hwhole, hwritten, if_true,
      String.append_assoc]

end Running

section Modes

theorem withFlag?_withTokens (o : Options) (argument : String) :
    o.withTokens.withFlag? argument = (o.withFlag? argument).map Options.withTokens := by
  unfold Options.withFlag?
  split <;> rfl

theorem readArguments_help {argument : String} (hhelp : isHelpOption argument = true) (o : Options)
    (rest : List String) : readArguments o (argument :: rest) = .ok .help := by
  unfold readArguments
  exact if_pos hhelp

/-- An argument that asks neither for help nor for a grammar is a flag or a source. -/
theorem readArguments_cons {argument : String} (hhelp : ¬ isHelpOption argument = true)
    (hgrammar : ¬ isGrammarOption argument = true) (o : Options) (rest : List String) :
    readArguments o (argument :: rest) =
      match o.withFlag? argument with
      | some flagged => readArguments flagged rest
      | none =>
        if isOption argument then .error (.unknownOption argument)
        else if o.source?.isSome then .error .secondSource
        else readArguments { o with source? := some argument } rest := by
  rw [readArguments.eq_def]
  exact (if_neg hhelp).trans (if_neg hgrammar)

/-- Asking for the tokens leaves alone what is made of the other arguments. -/
theorem readArguments_withTokens (o : Options) (arguments : List String) :
    readArguments o.withTokens arguments =
      (readArguments o arguments).map Command.withTokens := by
  fun_induction readArguments o arguments with
  | case1 => rfl
  | case2 o argument rest hhelp => rw [readArguments_help hhelp]; rfl
  | case3 o argument hhelp hgrammar => rw [readArguments, if_neg hhelp, if_pos hgrammar]; rfl
  | case4 o argument hhelp hgrammar path rest ih =>
    rw [readArguments, if_neg hhelp, if_pos hgrammar]
    exact ih
  | case5 o argument rest hhelp hgrammar flagged hflag ih =>
    rw [readArguments_cons hhelp hgrammar, withFlag?_withTokens, hflag]
    exact ih
  | case6 o argument rest hhelp hgrammar hflag hoption =>
    rw [readArguments_cons hhelp hgrammar, withFlag?_withTokens, hflag]
    exact if_pos hoption
  | case7 o argument rest hhelp hgrammar hflag hoption hsource =>
    rw [readArguments_cons hhelp hgrammar, withFlag?_withTokens, hflag]
    exact (if_neg hoption).trans (if_pos hsource)
  | case8 o argument rest hhelp hgrammar hflag hoption hsource ih =>
    rw [readArguments_cons hhelp hgrammar, withFlag?_withTokens, hflag]
    exact ((if_neg hoption).trans (if_neg hsource)).trans ih

theorem parseArguments_tokens (arguments : List String) :
    parseArguments ("--tokens" :: arguments) =
      (parseArguments arguments).map Command.withTokens := by
  rw [parseArguments, readArguments_cons (by decide) (by decide)]
  exact readArguments_withTokens {} arguments

/-- Tokens are read with no more faults than a recognition of them finds. -/
theorem recorded_withTokens {o : Options} {file text : String} (h : o.recorded file text = []) :
    o.withTokens.recorded file text = [] := by
  have hspelling : spellingFaults file text = [] := by
    rw [Options.recorded] at h
    split at h
    · exact h
    · rw [← (filter_diagnostics file text).1, h]
      rfl
  exact hspelling

theorem RunFails.of_withTokens {host : Host} {disk : Disk} {o : Options}
    (h : RunFails host disk o.withTokens) : RunFails host disk o := by
  cases h with
  | grammar due none =>
    refine .grammar ?_ none
    cases due with
    | given given => exact .given given
    | default free present => exact .default free present
  | source none => exact .source none
  | diagnostics source recorded =>
    exact .diagnostics source fun hnone => recorded (recorded_withTokens hnone)

/-- Asking for the tokens in front of the other arguments makes no run fail. -/
theorem run_tokens_exit {host : Host} {arguments : List String} {disk : Disk}
    (h : (runOn host arguments disk).exit = 0) :
    (runOn host ("--tokens" :: arguments) disk).exit = 0 := by
  rw [runOn] at h
  rw [runOn, parseArguments_tokens]
  cases hparse : parseArguments arguments with
  | error fault => simp [hparse] at h
  | ok command =>
    rw [hparse] at h
    cases command with
    | help => rfl
    | run o =>
      have hsound : ¬ RunFails host disk o := (runOptions_exit_iff host disk o).1.mp h
      exact (runOptions_exit_iff host disk o.withTokens).1.mpr fun hfails =>
        hsound hfails.of_withTokens

end Modes

/-- What the exit status of a run says, for every list of arguments, all files there may be, and
whatever the run is built on. No run breaks off where lines can be padded without bound, or at least
as far as the lines of its source go. -/
theorem run_exit (host : Host) (arguments : List String) (disk : Disk) :
    let outcome := runOn host arguments disk
    (outcome.exit = 2 ↔ ∃ fault, parseArguments arguments = .error fault) ∧
    (outcome.exit = 2 → outcome.stdout = "") ∧
    (parseArguments arguments = .ok .help → outcome.exit = 0 ∧ outcome.stdout = "") ∧
    (∀ o, parseArguments arguments = .ok (.run o) →
      (outcome.exit = 0 ↔ ¬ RunFails host disk o) ∧
      (outcome.exit = 1 ↔ RunFails host disk o ∧ ¬ RunBreaksOff host disk o) ∧
      (outcome.exit = brokenOffExit ↔ RunBreaksOff host disk o) ∧
      (host.maxPadding? = none → ¬ RunBreaksOff host disk o) ∧
      ((∀ file text, disk.HoldsSource o.source file text → host.Spans text) →
        ¬ RunBreaksOff host disk o) ∧
      ∀ file text, o.tokens = false →
        (∀ path, GrammarDue disk o path → ∃ table, disk.HoldsTable host path table) →
        disk.HoldsSource o.source file text → ¬ RunBreaksOff host disk o →
        let c := compile file text
        ∃ printed, PrintsGrammar host disk o printed ∧ outcome.stdout =
          printed ++ c.notices ++ (if o.tree then c.dump else "") ++
            Diagnostic.render c.diagnostics) ∧
    (outcome.exit = 0 → (runOn host ("--tokens" :: arguments) disk).exit = 0) := by
  intro outcome
  have hmodes : outcome.exit = 0 → (runOn host ("--tokens" :: arguments) disk).exit = 0 :=
    run_tokens_exit
  cases hparse : parseArguments arguments with
  | error fault =>
    have houtcome : outcome.exit = 2 ∧ outcome.stdout = "" := by
      simp only [outcome, runOn, hparse, and_self]
    exact ⟨iff_of_true houtcome.1 ⟨fault, rfl⟩, fun _ => houtcome.2, by simp, by simp, hmodes⟩
  | ok command =>
    cases command with
    | help =>
      have houtcome : outcome.exit = 0 ∧ outcome.stdout = "" := by
        simp only [outcome, runOn, hparse, and_self]
      exact ⟨by simp [houtcome.1], by simp [houtcome.1], fun _ => houtcome, by simp, hmodes⟩
    | run o =>
      have houtcome : outcome = runOptions host o disk := by simp only [outcome, runOn, hparse]
      rw [houtcome] at hmodes ⊢
      obtain ⟨hzero, hone, hbroken⟩ := runOptions_exit_iff host disk o
      have htwo : (runOptions host o disk).exit ≠ 2 := by
        rcases runOptions_exit host disk o with ⟨hexit, -⟩ | ⟨hexit, -⟩ | ⟨hexit, -⟩ <;>
          simp [hexit, brokenOffExit]
      refine ⟨iff_of_false htwo (by simp), fun h => absurd h htwo, by simp, ?_, hmodes⟩
      rintro o' ho
      obtain rfl : o = o' := by simpa using ho
      exact ⟨hzero, hone, hbroken,
        fun hunbounded => not_runBreaksOff fun _ text _ => host.spans_of_unbounded hunbounded text,
        not_runBreaksOff, fun file text => runOptions_stdout host disk o⟩

/-- A default grammar that nothing can be told of is not due, though to read it would fail for another
reason than that it is not there. -/
example : (run [] ⟨"/", fun _ => false, fun path =>
    if path = defaultGrammar then .error .notADirectory else .ok ""⟩).exit = 0 := by
  decide +kernel

/-- The caret belongs under the fourth column. -/
example : (runOn { Host.plain with maxPadding? := some 2 } []
      ⟨"/", fun _ => false, fun _ => .ok "   1'"⟩).exit = brokenOffExit ∧
    (runOn { Host.plain with maxPadding? := some 3 } []
      ⟨"/", fun _ => false, fun _ => .ok "   1'"⟩).exit = 1 := by
  decide +kernel

end SlsLang
