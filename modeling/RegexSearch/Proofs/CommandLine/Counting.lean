import RegexSearch.CommandLine.Directory
import RegexSearch.Proofs.CommandLine.Printing
import RegexSearch.Proofs.Engine.Once

/-!
Counting instead of printing. A command that only counts searches the same lines as one that prints
what it finds, with the same failures, and what the one counts are the lines that the other prints.
Two engines are involved, but neither of them shows in what a line gives.
-/

namespace RegexSearch

/-! ### Arguments -/

/-- The same settings, but with the number of matches asked for. -/
def Settings.counting (settings : Settings) : Settings :=
  { settings with countOnly := true }

namespace Command

/-- The command that counts what another one prints. -/
def counting (command : Command) : Command :=
  { command with settings := command.settings.counting }

theorem applyFlag?_counting (settings : Settings) (argument : Bytes) :
    settings.counting.applyFlag? argument =
      (settings.applyFlag? argument).map Settings.counting := by
  unfold Settings.applyFlag?
  split
  · rfl
  · split
    · rfl
    · split <;> rfl

theorem numberOption?_counting (settings : Settings) (argument : Bytes) :
    settings.counting.numberOption? argument =
      (settings.numberOption? argument).map fun change number => (change number).counting := by
  unfold Settings.numberOption?
  split
  · rfl
  · split <;> rfl

/-- Whether the number of matches is asked for has no influence on how arguments are read. -/
theorem parseFrom_counting (settings : Settings) (arguments : List Bytes) :
    parseFrom settings.counting arguments = (parseFrom settings arguments).map counting := by
  induction settings, arguments using parseFrom.induct with
  | case1 settings => rfl
  | case2 settings argument rest hoperand =>
      simp only [parseFrom, if_pos hoperand]
      rfl
  | case3 settings rest hoption =>
      simp only [parseFrom, if_neg hoption]
      cases rest with
      | nil => rfl
      | cons pattern files => rfl
  | case4 settings argument rest hoption hend changed hflag ih =>
      simp only [parseFrom, if_neg hoption, if_neg hend, applyFlag?_counting, hflag]
      exact ih
  | case5 settings argument rest hoption hend hnumber hflag =>
      simp only [parseFrom, if_neg hoption, if_neg hend, applyFlag?_counting,
        numberOption?_counting, hflag, hnumber]
      rfl
  | case6 settings argument hoption hend change hnumber hflag =>
      simp only [parseFrom, if_neg hoption, if_neg hend, applyFlag?_counting,
        numberOption?_counting, hflag, hnumber]
      rfl
  | case7 settings argument hoption hend change hnumber hflag value others hvalue =>
      simp only [parseFrom, if_neg hoption, if_neg hend, applyFlag?_counting,
        numberOption?_counting, hflag, hnumber, Option.map_none, Option.map_some, hvalue]
      rfl
  | case8 settings argument hoption hend change hnumber hflag value others number hvalue ih =>
      simp only [parseFrom, if_neg hoption, if_neg hend, applyFlag?_counting,
        numberOption?_counting, hflag, hnumber, Option.map_none, Option.map_some, hvalue]
      exact ih

theorem parse_counting (arguments : List Bytes) :
    parse (ascii "-c" :: arguments) = (parse arguments).map counting :=
  parseFrom_counting {} arguments

theorem settings_of_applyFlag? {settings changed : Settings} {argument : Bytes}
    (h : settings.applyFlag? argument = some changed) (hcount : argument ≠ ascii "-c")
    (hdump : argument ≠ ascii "-d") :
    changed.countOnly = settings.countOnly ∧ changed.dump = settings.dump := by
  rw [Settings.applyFlag?, if_neg hcount, if_neg hdump] at h
  split at h
  · obtain rfl := Option.some.inj h
    exact ⟨rfl, rfl⟩
  · cases h

theorem settings_of_numberOption? {settings : Settings} {argument : Bytes}
    {change : Nat → Settings} (h : settings.numberOption? argument = some change) (number : Nat) :
    (change number).countOnly = settings.countOnly ∧ (change number).dump = settings.dump := by
  unfold Settings.numberOption? at h
  split at h
  · obtain rfl := Option.some.inj h
    exact ⟨rfl, rfl⟩
  · split at h
    · obtain rfl := Option.some.inj h
      exact ⟨rfl, rfl⟩
    · cases h

/-- Without the option for it, neither the number of matches is asked for nor a dump. -/
theorem settings_of_parseFrom {settings : Settings} {arguments : List Bytes} {command : Command}
    (h : parseFrom settings arguments = .ok command) (hcount : ascii "-c" ∉ arguments)
    (hdump : ascii "-d" ∉ arguments) :
    command.settings.countOnly = settings.countOnly ∧ command.settings.dump = settings.dump := by
  induction settings, arguments using parseFrom.induct with
  | case1 settings => cases h
  | case2 settings argument rest hoperand =>
      rw [parseFrom, if_pos hoperand] at h
      obtain rfl := Except.ok.inj h
      exact ⟨rfl, rfl⟩
  | case3 settings rest hoption =>
      rw [parseFrom, if_neg hoption, if_pos rfl] at h
      cases rest with
      | nil => cases h
      | cons pattern files =>
          obtain rfl := Except.ok.inj h
          exact ⟨rfl, rfl⟩
  | case4 settings argument rest hoption hend changed hflag ih =>
      simp only [parseFrom, if_neg hoption, if_neg hend, hflag] at h
      obtain ⟨hother, hcount⟩ := List.ne_and_not_mem_of_not_mem_cons hcount
      obtain ⟨hother', hdump⟩ := List.ne_and_not_mem_of_not_mem_cons hdump
      obtain ⟨hfirst, hfirst'⟩ := settings_of_applyFlag? hflag hother.symm hother'.symm
      obtain ⟨hlater, hlater'⟩ := ih h hcount hdump
      exact ⟨hlater.trans hfirst, hlater'.trans hfirst'⟩
  | case5 settings argument rest hoption hend hnumber hflag =>
      simp only [parseFrom, if_neg hoption, if_neg hend, hflag, hnumber] at h
      cases h
  | case6 settings argument hoption hend change hnumber hflag =>
      simp only [parseFrom, if_neg hoption, if_neg hend, hflag, hnumber] at h
      cases h
  | case7 settings argument hoption hend change hnumber hflag value others hvalue =>
      simp only [parseFrom, if_neg hoption, if_neg hend, hflag, hnumber, hvalue] at h
      cases h
  | case8 settings argument hoption hend change hnumber hflag value others number hvalue ih =>
      simp only [parseFrom, if_neg hoption, if_neg hend, hflag, hnumber, hvalue] at h
      simp only [List.mem_cons, not_or] at hcount hdump
      obtain ⟨hfirst, hfirst'⟩ := settings_of_numberOption? hnumber number
      obtain ⟨hlater, hlater'⟩ := ih h hcount.2.2 hdump.2.2
      exact ⟨hlater.trans hfirst, hlater'.trans hfirst'⟩

end Command

/-! ### Reports -/

/-- The lines of a source, none if it cannot be opened. -/
def Source.lines (source : Source) : List Bytes :=
  source.content.elim [] RegexSearch.lines

namespace Command

/-- The number of matches that a search finds in a line, none if it times out. -/
def matchCount (command : Command) (line : Bytes) : Nat :=
  match Once.search command.settings.options command.pattern line.toArray with
  | .error _ => 0
  | .ok found => found.length

def TimesOut (command : Command) (line : Bytes) : Prop :=
  Once.search command.settings.options command.pattern line.toArray = .error .timeout

end Command

/-- The report of a command and that of the command that only counts agree: the one prints as many
lines as the other counts, and they have failed in the same way. -/
structure Report.Tallies (count : Nat) (failed : Prop) (listing counting : Report) : Prop where
  printed : PrintsLines count listing.out
  silent : counting.out = []
  err : counting.err = listing.err
  listed : listing.matched = count
  counted : counting.matched = count
  failed_listing : listing.failed = true ↔ failed
  failed_counting : counting.failed = true ↔ failed

namespace Report.Tallies

variable {count more : Nat} {failed cut : Prop} {listing counting listing' counting' : Report}

theorem empty : Tallies 0 False .empty .empty :=
  ⟨.nil, rfl, rfl, rfl, rfl, by simp [Report.empty], by simp [Report.empty]⟩

theorem failure (message : Bytes) : Tallies 0 True (.failure message) (.failure message) :=
  ⟨.nil, rfl, rfl, rfl, rfl, by simp [Report.failure], by simp [Report.failure]⟩

theorem join (h : Tallies count failed listing counting)
    (hrest : Tallies more cut listing' counting') :
    Tallies (count + more) (failed ∨ cut) (listing.join listing') (counting.join counting') where
  printed := h.printed.append hrest.printed
  silent := by simp [Report.join, h.silent, hrest.silent]
  err := by simp [Report.join, h.err, hrest.err]
  listed := by simp [Report.join, h.listed, hrest.listed]
  counted := by simp [Report.join, h.counted, hrest.counted]
  failed_listing := by simp [Report.join, h.failed_listing, hrest.failed_listing]
  failed_counting := by simp [Report.join, h.failed_counting, hrest.failed_counting]

theorem congr (h : Tallies count failed listing counting) (hcount : count = more)
    (hfailed : failed ↔ cut) : Tallies more cut listing counting := by
  rw [← hcount, ← propext hfailed]
  exact h

theorem exitStatus_eq (h : Tallies count failed listing counting) :
    Command.exitStatus counting = Command.exitStatus listing ∧
      (failed → Command.exitStatus listing = 2) ∧
      (¬ failed → Command.exitStatus listing = if 0 < count then 0 else 1) := by
  have hfailed : counting.failed = listing.failed :=
    Bool.eq_iff_iff.mpr (h.failed_counting.trans h.failed_listing.symm)
  refine ⟨?_, ?_, ?_⟩
  · rw [Command.exitStatus, Command.exitStatus, hfailed, h.counted, h.listed]
  · intro hcut
    rw [Command.exitStatus, if_pos (h.failed_listing.mpr hcut)]
    rfl
  · intro hcut
    rw [Command.exitStatus, if_neg (mt h.failed_listing.mp hcut), h.listed]
    rfl

end Report.Tallies

namespace Command

section

variable {command : Command} {program : Program} (hprints : command.settings.countOnly = false)
  (hcompiled : Engine.compiled command.settings.options command.pattern = .ok program)

include hprints hcompiled

/-- One line, searched by two engines. -/
theorem tallies_searchLine {name line : Bytes} (hname : OnOneLine name) (number : Nat)
    (hline : OnOneLine line) {engine engine' : Engine} (h : engine.Ready command.settings.options)
    (h' : engine'.Ready command.settings.options) :
    Report.Tallies (command.matchCount line) (command.TimesOut line)
        (command.searchLine engine name number line).1
        (command.counting.searchLine engine' name number line).1 ∧
      (command.searchLine engine name number line).2.Ready command.settings.options ∧
      (command.counting.searchLine engine' name number line).2.Ready command.settings.options := by
  -- Both engines give what a new one gives, so one case split serves both runs.
  have hsearch := h.search command.pattern line.toArray
  have hsearch' := h'.search command.counting.pattern line.toArray
  unfold searchLine matchCount TimesOut
  cases hfirst : engine.search command.pattern line.toArray with
  | mk result next =>
      cases hsecond : engine'.search command.counting.pattern line.toArray with
      | mk result' next' =>
          rw [hfirst] at hsearch
          rw [hsecond] at hsearch'
          obtain ⟨hresult, hnext⟩ := hsearch
          obtain ⟨hresult', hnext'⟩ := hsearch'
          dsimp only at hresult hresult' hnext hnext'
          subst hresult hresult'
          dsimp only [counting]
          cases hfound : Once.search command.settings.options command.pattern line.toArray with
          | error error =>
              obtain rfl := Once.eq_timeout_of_search hcompiled hfound
              refine ⟨?_, hnext, hnext'⟩
              exact (Report.Tallies.failure _).congr rfl (by simp)
          | ok found =>
              have hslices : ∀ slice ∈ found, OnOneLine slice.bytes := fun slice hslice =>
                hline.subset (Once.subset_of_search hfound hslice)
              refine ⟨⟨?_, rfl, rfl, rfl, rfl, by simp, by simp⟩, hnext, hnext'⟩
              simp only [hprints]
              exact command.printsLines_flatMap_matchLine hname number hslices

/-- Lines one after the other. -/
theorem tallies_searchLines {name : Bytes} (hname : OnOneLine name) (number : Nat)
    {input : List Bytes} (hinput : ∀ line ∈ input, OnOneLine line) {engine engine' : Engine}
    (h : engine.Ready command.settings.options) (h' : engine'.Ready command.settings.options) :
    Report.Tallies (input.map command.matchCount).sum (∃ line ∈ input, command.TimesOut line)
        (command.searchLines name engine number input).1
        (command.counting.searchLines name engine' number input).1 ∧
      (command.searchLines name engine number input).2.Ready command.settings.options ∧
      (command.counting.searchLines name engine' number input).2.Ready
        command.settings.options := by
  induction input generalizing number engine engine' with
  | nil => exact ⟨Report.Tallies.empty.congr rfl (by simp), h, h'⟩
  | cons line input ih =>
      obtain ⟨hline, hrest⟩ := List.forall_mem_cons.mp hinput
      obtain ⟨hfirst, hnext, hnext'⟩ :=
        tallies_searchLine hprints hcompiled hname number hline h h'
      obtain ⟨hothers, hlast, hlast'⟩ := ih (number + 1) hrest hnext hnext'
      refine ⟨?_, hlast, hlast'⟩
      exact (hfirst.join hothers).congr (by simp) (by simp)

theorem tallies_searchSource {source : Source} (hname : OnOneLine source.name)
    {engine engine' : Engine} (h : engine.Ready command.settings.options)
    (h' : engine'.Ready command.settings.options) :
    Report.Tallies (source.lines.map command.matchCount).sum
        (source.content = none ∨ ∃ line ∈ source.lines, command.TimesOut line)
        (command.searchSource engine source).1 (command.counting.searchSource engine' source).1 ∧
      (command.searchSource engine source).2.Ready command.settings.options ∧
      (command.counting.searchSource engine' source).2.Ready command.settings.options := by
  unfold searchSource Source.lines
  cases source.content with
  | none => exact ⟨(Report.Tallies.failure _).congr rfl (by simp), h, h'⟩
  | some content =>
      obtain ⟨htallies, hlast, hlast'⟩ := tallies_searchLines hprints hcompiled hname 1
        (fun _ hmem => onOneLine_of_mem_lines hmem) h h'
      exact ⟨htallies.congr rfl (by simp), hlast, hlast'⟩

/-- All sources, whatever they give to read. -/
theorem tallies_searchSources {sources : List Source}
    (hnames : ∀ source ∈ sources, OnOneLine source.name) {engine engine' : Engine}
    (h : engine.Ready command.settings.options) (h' : engine'.Ready command.settings.options) :
    Report.Tallies ((sources.flatMap Source.lines).map command.matchCount).sum
      ((∃ source ∈ sources, source.content = none) ∨
        ∃ line ∈ sources.flatMap Source.lines, command.TimesOut line)
      (command.searchSources engine sources).1
      (command.counting.searchSources engine' sources).1 := by
  induction sources generalizing engine engine' with
  | nil => exact Report.Tallies.empty.congr rfl (by simp)
  | cons source sources ih =>
      obtain ⟨hname, hrest⟩ := List.forall_mem_cons.mp hnames
      obtain ⟨hfirst, hnext, hnext'⟩ := tallies_searchSource hprints hcompiled hname h h'
      have hothers := ih hrest hnext hnext'
      apply (hfirst.join hothers).congr
      · simp
      · simp only [List.flatMap_cons, List.exists_mem_cons_iff, List.mem_append, or_and_right,
          exists_or]
        exact or_or_or_comm

end

/-! ### Runs -/

theorem onOneLine_of_mem_sources {command : Command} (find : Bytes → Option Bytes) (stdin : Bytes)
    (hfiles : ∀ file ∈ command.files, OnOneLine file) :
    ∀ source ∈ command.sources find stdin, OnOneLine source.name := by
  have hinput : OnOneLine standardInputName := by decide
  have hresolve : ∀ files stdin, (∀ file ∈ files, OnOneLine file) →
      ∀ source ∈ resolve find stdin files, OnOneLine source.name := by
    intro files
    induction files with
    | nil => simp [resolve]
    | cons file files ih =>
        intro stdin hfiles
        obtain ⟨hfile, hrest⟩ := List.forall_mem_cons.mp hfiles
        rw [resolve]
        split
        · exact List.forall_mem_cons.mpr ⟨hinput, ih [] hrest⟩
        · exact List.forall_mem_cons.mpr ⟨hfile, ih stdin hrest⟩
  rw [sources]
  split
  · exact List.forall_mem_singleton.mpr hinput
  · exact hresolve _ _ hfiles

/-- What is wrong with a pattern is all that is printed. -/
theorem execute_of_error (command : Command) {error : Error}
    (hdump : command.settings.dump = false)
    (hcompiled : Engine.compiled command.settings.options command.pattern = .error error)
    (sources : List Source) :
    command.execute sources =
      ⟨statusError, [], ascii "dgrep: " ++ error.text ++ ascii "\n"⟩ := by
  have hcompile := ((Engine.ready_new command.settings.options).compile command.pattern).1
  rw [hcompiled] at hcompile
  cases hfirst : (Engine.new command.settings.options).compile command.pattern with
  | mk result next =>
      rw [hfirst] at hcompile
      obtain rfl : result = .error error := hcompile
      simp [execute, prepare, hdump, hfirst, Report.empty, Report.join, Report.failure]

/-- With a pattern that compiles, the sources are searched. -/
theorem execute_of_ok (command : Command) {program : Program}
    (hdump : command.settings.dump = false)
    (hcompiled : Engine.compiled command.settings.options command.pattern = .ok program) :
    ∃ engine : Engine, engine.Ready command.settings.options ∧ ∀ sources,
      let searched := (command.searchSources engine sources).1
      command.execute sources =
        ⟨exitStatus searched, searched.out ++ command.total searched, searched.err⟩ := by
  obtain ⟨hcompile, hready⟩ := (Engine.ready_new command.settings.options).compile command.pattern
  rw [hcompiled] at hcompile
  cases hfirst : (Engine.new command.settings.options).compile command.pattern with
  | mk result next =>
      rw [hfirst] at hcompile hready
      obtain rfl : result = .ok program := hcompile
      refine ⟨next, hready, ?_⟩
      intro sources
      simp [execute, prepare, hdump, hfirst, Report.empty]

/-- The two runs on the same sources. -/
theorem execute_counting {command : Command} {program : Program}
    (hprints : command.settings.countOnly = false) (hdump : command.settings.dump = false)
    (hcompiled : Engine.compiled command.settings.options command.pattern = .ok program)
    {sources : List Source} (hnames : ∀ source ∈ sources, OnOneLine source.name) :
    ∃ listed counted,
      Report.Tallies ((sources.flatMap Source.lines).map command.matchCount).sum
        ((∃ source ∈ sources, source.content = none) ∨
          ∃ line ∈ sources.flatMap Source.lines, command.TimesOut line) listed counted ∧
      command.execute sources = ⟨exitStatus listed, listed.out, listed.err⟩ ∧
      command.counting.execute sources =
        ⟨exitStatus counted, decimal counted.matched ++ ascii "\n", counted.err⟩ := by
  obtain ⟨engine, hready, hlisting⟩ := execute_of_ok command hdump hcompiled
  obtain ⟨engine', hready', hcounting⟩ := execute_of_ok command.counting hdump hcompiled
  have htallies := tallies_searchSources hprints hcompiled hnames hready hready'
  refine ⟨_, _, htallies, ?_, ?_⟩
  · rw [hlisting, total, if_neg (by simp [hprints]), List.append_nil]
  · rw [hcounting, htallies.silent]
    rfl

end Command

/-- Counting agrees with printing. When arguments ask for neither a count nor a dump, and name no
file with a newline in its name, asking for the count prints one number, that of the lines printed
without asking for it. It is the number of matches found in all lines of all sources that can be
read. The failures are the same, and so is the exit status. If the arguments or the pattern are
refused, nothing is printed either way. -/
theorem count_eq_lines_printed (arguments : List Bytes) (find : Bytes → Option Bytes)
    (stdin : Bytes) (hcount : ascii "-c" ∉ arguments) (hdump : ascii "-d" ∉ arguments)
    (hfiles : ∀ command, Command.parse arguments = .ok command →
      ∀ file ∈ command.files, OnOneLine file) :
    let listing := runCommandLine arguments find stdin
    let counting := runCommandLine (ascii "-c" :: arguments) find stdin
    let refused := counting = listing ∧ listing.stdout = [] ∧ listing.status = 2
    match Command.parse arguments with
    | .error _ => refused
    | .ok command =>
      match Engine.compiled command.settings.options command.pattern with
      | .error _ => refused
      | .ok _ =>
        let sources := command.sources find stdin
        let input := sources.flatMap Source.lines
        let count := (input.map command.matchCount).sum
        let failed :=
          (∃ source ∈ sources, source.content = none) ∨ ∃ line ∈ input, command.TimesOut line
        counting.stdout = decimal count ++ ascii "\n" ∧
          PrintsLines count listing.stdout ∧ (lines listing.stdout).length = count ∧
          counting.stderr = listing.stderr ∧ counting.status = listing.status ∧
          (failed → listing.status = 2) ∧
          (¬ failed → listing.status = if 0 < count then 0 else 1) := by
  intro listing counting refused
  have hparse := Command.parse_counting arguments
  cases hcommand : Command.parse arguments with
  | error complaint =>
      rw [hcommand] at hparse
      have hlisting : listing = ⟨statusError, [], complaint.message ++ usage⟩ := by
        simp only [listing, runCommandLine, hcommand]
      have hcounting : counting = ⟨statusError, [], complaint.message ++ usage⟩ := by
        simp only [counting, runCommandLine, hparse, Except.map]
      exact ⟨hcounting.trans hlisting.symm, by rw [hlisting], by rw [hlisting]; rfl⟩
  | ok command =>
      rw [hcommand] at hparse
      obtain ⟨hprints, hplain⟩ := Command.settings_of_parseFrom hcommand hcount hdump
      have hlisting : listing = command.execute (command.sources find stdin) := by
        simp only [listing, runCommandLine, hcommand]
      have hcounting : counting = command.counting.execute (command.sources find stdin) := by
        simp only [counting, runCommandLine, hparse, Except.map]
        rfl
      dsimp only
      cases hcompiled : Engine.compiled command.settings.options command.pattern with
      | error error =>
          rw [Command.execute_of_error command hplain hcompiled] at hlisting
          rw [Command.execute_of_error command.counting hplain hcompiled] at hcounting
          exact ⟨hcounting.trans hlisting.symm, by rw [hlisting], by rw [hlisting]; rfl⟩
      | ok program =>
          have hnames :=
            Command.onOneLine_of_mem_sources find stdin (hfiles command hcommand)
          obtain ⟨listed, counted, htallies, hlisted, hcounted⟩ :=
            Command.execute_counting hprints hplain hcompiled hnames
          rw [hlisted] at hlisting
          rw [hcounted, htallies.counted] at hcounting
          obtain ⟨hstatus, hfailed, hfine⟩ := htallies.exitStatus_eq
          rw [hlisting, hcounting]
          exact ⟨rfl, htallies.printed, htallies.printed.length_lines, htallies.err, hstatus,
            hfailed, hfine⟩

/-- With eight steps for each attempt the first line of the file times out, in the middle of what
there is to find. The second line has a match. The file is named by a path that leads to it. -/
theorem count_eq_lines_printed_of_late_timeout :
    let arguments := [ascii "--steps", ascii "8", ascii "-n", ascii "a+", ascii "./f", ascii "-"]
    let find := Directory.read? ⟨[(ascii "f", ascii "abaaaa\nba")]⟩
    let listing := runCommandLine arguments find []
    let counting := runCommandLine (ascii "-c" :: arguments) find []
    counting.stdout = ascii "1\n" ∧ (lines listing.stdout).length = 1 ∧
      counting.stderr = listing.stderr ∧ counting.status = 2 ∧ listing.status = 2 := by
  intro arguments find
  let command : Command := ⟨{ lineNumbers := true, options := { stepLimit := 8 } }, ascii "a+",
    [ascii "./f", ascii "-"]⟩
  have hparse : Command.parse arguments = .ok command := rfl
  have hcompiled : Engine.compiled command.settings.options command.pattern =
      .ok (Program.ofTree (.rep (.atom 0 (.byte 97)) ⟨1, none, true⟩) 0) := rfl
  have hfiles : ∀ other, Command.parse arguments = .ok other →
      ∀ file ∈ other.files, OnOneLine file := by
    intro other hother
    obtain rfl := Except.ok.inj (hparse.symm.trans hother)
    decide
  have hagree := count_eq_lines_printed arguments find [] (by decide) (by decide) hfiles
  simp only [hparse, hcompiled] at hagree
  obtain ⟨hstdout, -, hlength, hstderr, hstatus, hfailed, -⟩ := hagree
  have htimeout : command.TimesOut (ascii "abaaaa") := rfl
  have hlisting := hfailed (.inr ⟨_, List.mem_cons_self, htimeout⟩)
  have hone : (((command.sources find []).flatMap Source.lines).map command.matchCount).sum = 1 :=
    rfl
  rw [hone] at hstdout hlength
  exact ⟨hstdout, hlength, hstderr, hstatus.trans hlisting, hlisting⟩

end RegexSearch
