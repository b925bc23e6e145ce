import Nonlocal.Proofs.Command.Effects

/-!
Two spellings of an option: its value joined to it by an equals sign, or as the next argument.

Wherever an option stands, both spellings are read alike as long as the value can stand by itself
(`Command.request_of_respelled`). The value of a count always can. A noise that is written with a
minus sign cannot, because only counts may be negative there: it has to be joined to its option.
Main statement: `Command.spelling_of_numbers`.
-/

namespace Nonlocal.Command

/-! ## Spellings -/

/-- An option with its value as the next argument. -/
def apart (flag : Flag) (value : String) : List String :=
  ["--" ++ flag.name, value]

/-- An option with its value joined to it. -/
def joined (flag : Flag) (value : String) : List String :=
  ["--" ++ flag.name ++ "=" ++ value]

/-- The arguments differ in the spelling of one option, whose value can stand by itself. -/
inductive Respelled : List String → List String → Prop
  | here {flag : Flag} {value : String} (stands : flag.takes value = true) (after : List String) :
    Respelled (apart flag value ++ after) (joined flag value ++ after)
  | later (argument : String) {left right : List String} (rest : Respelled left right) :
    Respelled (argument :: left) (argument :: right)

theorem respelled_of_takes {flag : Flag} {value : String} (stands : flag.takes value = true)
    (before after : List String) :
    Respelled (before ++ apart flag value ++ after) (before ++ joined flag value ++ after) := by
  rw [List.append_assoc, List.append_assoc]
  induction before with
  | nil => exact .here stands after
  | cons argument rest ih => exact .later argument ih

section Arguments

variable (flag : Flag) (value : String)

theorem toList_apart : ("--" ++ flag.name).toList = '-' :: '-' :: flag.name.toList := by
  simp [String.toList_append]

theorem toList_joined :
    ("--" ++ flag.name ++ "=" ++ value).toList =
      '-' :: '-' :: (flag.name.toList ++ '=' :: value.toList) := by
  simp [String.toList_append]

theorem argument_of_apart : Argument.of ("--" ++ flag.name) = .flag flag.name none := by
  cases flag <;> rfl

theorem argument_of_joined :
    Argument.of ("--" ++ flag.name ++ "=" ++ value) = .flag flag.name (some value) := by
  unfold Argument.of
  rw [toList_joined]
  cases flag <;> simp [Flag.name]

theorem takes_eq_false_of_dashes {name : List Char} {text : String}
    (dashes : text.toList = '-' :: '-' :: name) : flag.takes text = false := by
  unfold Flag.takes
  rw [dashes]
  simp

end Arguments

/-- Whatever is spelled, there is an argument with a dash. -/
theorem Respelled.exists_dash {left right : List String} (h : Respelled left right) :
    (∃ a ∈ left, a.toList.head? = some '-') ∧ ∃ a ∈ right, a.toList.head? = some '-' := by
  induction h with
  | @here flag value _ after =>
    refine ⟨⟨_, List.mem_cons_self, ?_⟩, _, List.mem_cons_self, ?_⟩
    · rw [toList_apart]
      rfl
    · rw [toList_joined]
      rfl
  | later argument _ ih =>
    obtain ⟨⟨a, inside, dash⟩, b, inside', dash'⟩ := ih
    exact ⟨⟨a, List.mem_cons_of_mem _ inside, dash⟩, b, List.mem_cons_of_mem _ inside', dash'⟩

/-! ## Reading -/

/-- Options are read to the same end. A command may be followed by arguments that are spelled
differently. -/
inductive EndsAlike : Option (Values × Ending) → Option (Values × Ending) → Prop
  | same (r : Option (Values × Ending)) : EndsAlike r r
  | word (values : Values) (text : String) {left right : List String}
    (rest : Respelled left right) :
    EndsAlike (some (values, .word text left)) (some (values, .word text right))

theorem EndsAlike.bind {α : Type} {x : Option α} {f g : α → Option (Values × Ending)}
    (alike : ∀ a, EndsAlike (f a) (g a)) : EndsAlike (x >>= f) (x >>= g) := by
  cases x with
  | none => exact .same none
  | some a => exact alike a

variable {allowed : List Flag} {named : Bool} {left right : List String}

/-- What an option makes of the arguments after it, if no value is joined to it. -/
def readNext (allowed : List Flag) (named : Bool) (flag : Flag) (values : Values) :
    List String → Option (Values × Ending)
  | [] => none
  | value :: rest =>
    if flag.takes value then values.add? flag value >>= (readFlags allowed named · rest) else none

theorem readNext_eq_none {flag : Flag} {values : Values} {argument : String} {rest : List String}
    (untaken : flag.takes argument = false) :
    readNext allowed named flag values (argument :: rest) = none := by
  rw [readNext, untaken]
  rfl

theorem readFlags_of_known {argument name : String} {flag : Flag} {values : Values}
    {rest : List String} (option : Argument.of argument = .flag name none)
    (known : allowed.find? (·.name == name) = some flag) :
    readFlags allowed named values (argument :: rest) =
      readNext allowed named flag values rest := by
  rw [readFlags, option]
  cases rest with
  | nil => simp [known, readNext]
  | cons value rest => simp [known, readNext]

/-- One argument in front changes nothing, whether it is a word, an option with a joined value or
one that may take the argument after it. -/
theorem EndsAlike.later (argument : String) (rest : Respelled left right)
    (alike : ∀ values, EndsAlike (readFlags allowed named values left)
      (readFlags allowed named values right))
    (next : ∀ flag values, EndsAlike (readNext allowed named flag values left)
      (readNext allowed named flag values right)) (values : Values) :
    EndsAlike (readFlags allowed named values (argument :: left))
      (readFlags allowed named values (argument :: right)) := by
  cases kind : Argument.of argument with
  | word text =>
    rw [readFlags, readFlags, kind]
    cases named with
    | true => exact .word values text rest
    | false => exact .same none
  | separator =>
    rw [readFlags, readFlags, kind]
    obtain ⟨⟨_, inside, -⟩, _, inside', -⟩ := rest.exists_dash
    have full : left.isEmpty = false := List.isEmpty_eq_false_iff_exists_mem.mpr ⟨_, inside⟩
    have full' : right.isEmpty = false := List.isEmpty_eq_false_iff_exists_mem.mpr ⟨_, inside'⟩
    dsimp only
    rw [full, full']
    exact .same none
  | letters c =>
    rw [readFlags, readFlags, kind]
    exact .same _
  | flag name value =>
    cases known : allowed.find? (·.name == name) with
    | none =>
      rw [readFlags, readFlags, kind]
      cases value <;> simp only [known] <;> exact .same _
    | some flag =>
      cases value with
      | none =>
        rw [readFlags_of_known kind known, readFlags_of_known kind known]
        exact next flag values
      | some value =>
        rw [readFlags, readFlags, kind]
        simp only [known]
        exact .bind alike

theorem Flag.name_injective {flag other : Flag} (same : flag.name = other.name) : flag = other := by
  cases flag <;> cases other <;> simp_all [Flag.name]

/-- An option and a value that can stand by itself are read like the two joined. -/
theorem readFlags_apart {flag : Flag} {value : String} (stands : flag.takes value = true)
    (after : List String) (values : Values) :
    readFlags allowed named values (apart flag value ++ after) =
      readFlags allowed named values (joined flag value ++ after) := by
  have left := argument_of_apart flag
  have right := argument_of_joined flag value
  cases known : allowed.find? (·.name == flag.name) with
  | none =>
    have unknown : flag.name ≠ "help" ∧ flag.name ≠ "version" := by cases flag <;> decide
    change readFlags allowed named values (("--" ++ flag.name) :: value :: after) =
      readFlags allowed named values (("--" ++ flag.name ++ "=" ++ value) :: after)
    rw [readFlags, readFlags, left, right]
    simp only [known]
    rw [if_neg unknown.1, if_neg fun h => unknown.2 h.2]
  | some other =>
    have same : other.name = flag.name := by simpa using List.find?_some known
    obtain rfl := Flag.name_injective same
    change readFlags allowed named values (("--" ++ other.name) :: value :: after) =
      readFlags allowed named values (("--" ++ other.name ++ "=" ++ value) :: after)
    rw [readFlags_of_known left known, readNext, if_pos stands, readFlags, right]
    simp only [known]

/-- Neither spelling of an option is taken for the value of the option before it. -/
theorem readNext_spelled (flag other : Flag) (value : String) (after : List String)
    (values : Values) :
    readNext allowed named other values (apart flag value ++ after) =
      readNext allowed named other values (joined flag value ++ after) := by
  have untaken : readNext allowed named other values (apart flag value ++ after) = none :=
    readNext_eq_none (takes_eq_false_of_dashes other (toList_apart flag))
  have untaken' := takes_eq_false_of_dashes other (toList_joined flag value)
  exact untaken.trans (readNext_eq_none untaken').symm

theorem endsAlike_of_respelled (h : Respelled left right) :
    (∀ values, EndsAlike (readFlags allowed named values left)
      (readFlags allowed named values right)) ∧
    ∀ flag values, EndsAlike (readNext allowed named flag values left)
      (readNext allowed named flag values right) := by
  induction h with
  | here stands after =>
    refine ⟨fun values => ?_, fun flag values => ?_⟩
    · rw [readFlags_apart stands]
      exact .same _
    · rw [readNext_spelled]
      exact .same _
  | later argument rest ih =>
    obtain ⟨alike, next⟩ := ih
    refine ⟨EndsAlike.later argument rest alike next, fun flag values => ?_⟩
    rw [readNext, readNext]
    split
    · exact .bind alike
    · exact .same none

/-- Help is not asked for with an option. -/
theorem not_topic_of_dash {rest : List String} (dash : ∃ a ∈ rest, a.toList.head? = some '-') :
    ¬(rest = [] ∨ rest = ["chsh"] ∨ rest = ["ezph"] ∨ rest = ["help"]) := by
  obtain ⟨a, inside, dash⟩ := dash
  rintro (rfl | rfl | rfl | rfl)
  · cases inside
  all_goals
    obtain rfl := List.mem_singleton.mp inside
    exact absurd dash (by decide)

/-- Arguments that differ in the spelling of one option ask for the same. -/
theorem request_of_respelled (h : Respelled left right) : Request.of? left = Request.of? right := by
  have ends : EndsAlike (readFlags globalFlags true [] left)
      (readFlags globalFlags true [] right) := (endsAlike_of_respelled h).1 []
  unfold Request.of?
  generalize readFlags globalFlags true [] left = x at ends
  generalize readFlags globalFlags true [] right = y at ends
  cases ends with
  | same r => rfl
  | @word values text left right rest =>
    dsimp only [Option.bind_eq_bind, Option.bind_some]
    split
    · obtain ⟨dash, dash'⟩ := rest.exists_dash
      rw [if_neg (not_topic_of_dash dash), if_neg (not_topic_of_dash dash')]
    · refine Option.bind_congr fun task _ => ?_
      have ends : EndsAlike (readFlags (task.1 ++ globalFlags) false [] left)
          (readFlags (task.1 ++ globalFlags) false [] right) := (endsAlike_of_respelled rest).1 []
      generalize readFlags (task.1 ++ globalFlags) false [] left = x at ends
      generalize readFlags (task.1 ++ globalFlags) false [] right = y at ends
      cases ends with
      | same r => rfl
      | word values text rest => rfl

/-! ## Numbers as values -/

theorem isDigit_of_digit? {c : Char} (digit : (Text.digit? 10 c).isSome = true) :
    c.isDigit = true := by
  unfold Text.digit? Text.hexDigit? at digit
  split at digit
  · next decimal =>
    exact Bool.and_eq_true_iff.mpr ⟨decide_eq_true decimal.1, decide_eq_true decimal.2⟩
  · split at digit
    · simp at digit
    · split at digit
      · simp at digit
      · cases digit

/-- A minus sign in front of a count is followed by digits only. -/
theorem takes_of_readCount? {value : String} {n : Int64} (read : readCount? value = some n) :
    Flag.shots.takes value = true := by
  unfold Flag.takes
  split
  · next c rest signed =>
    have digits : Decimal.spanSign value.toList = (true, c :: rest) := by rw [signed]; rfl
    unfold readCount? at read
    rw [digits] at read
    obtain ⟨k, whole, -⟩ := Option.bind_eq_some_iff.mp read
    have all := (Text.exists_foldlM_iff 0).mp ⟨k, whole⟩
    exact List.all_eq_true.mpr fun d inside => isDigit_of_digit? (all d inside)
  · rfl

theorem takes_of_unsigned {value : String} (unsigned : value.toList.head? ≠ some '-')
    (flag : Flag) : flag.takes value = true := by
  unfold Flag.takes
  split
  · next signed =>
    rw [signed] at unsigned
    exact absurd rfl unsigned
  · rfl

/-- A noise with a minus sign is no value by itself. -/
theorem takes_of_signed {value : String} {x : Float} (read : Decimal.read? value = some x)
    (signed : value.toList.head? = some '-') : Flag.depolarizing.takes value = false := by
  unfold Flag.takes
  split
  · rfl
  · next single =>
    -- A sign alone is no number.
    cases spelled : value.toList with
    | nil =>
      rw [spelled] at signed
      cases signed
    | cons sign rest =>
      rw [spelled] at signed
      cases Option.some.inj signed
      cases rest with
      | cons c rest => exact (single c rest spelled).elim
      | nil =>
        unfold Decimal.read? at read
        rw [spelled] at read
        cases read

/-! ## Commands with one option -/

/-- The names of the commands that carry out a run. -/
def commands : List String :=
  ["chsh", "ezph"]

/-- The shot budget and the noise of a task. -/
def Task.options : Task → RunOptions Float
  | .chsh _ options _ => options
  | .ezph _ options _ => options

/-- A single option with a joined value is read as that value. -/
theorem readFlags_joined {flag : Flag} {value : String}
    (known : allowed.find? (·.name == flag.name) = some flag)
    (accepted : flag.accepts value = true) :
    readFlags allowed false [] (joined flag value) = some ([(flag, value)], .last) := by
  have added : Values.add? [] flag value = some [(flag, value)] := if_pos ⟨rfl, accepted⟩
  unfold joined
  rw [readFlags, argument_of_joined]
  simp only [known, added]
  rfl

/-- What the arguments of a command ask for, given its options and the task that they make. -/
def requestWith (flags : List Flag) (make : Values → Task) (rest : List String) :
    Option Request := do
  let (after, ending) ← readFlags flags false [] rest
  match ending with
  | .last => return .run (engineSource [] after) (make after)
  | .help => return .help
  | .version | .word _ _ => none

section Commands

variable {command : String} (inside : command ∈ commands) {flag : Flag}
  (number : flag = .shots ∨ flag = .depolarizing) {value : String}

include inside

/-- A command has an option for each number of its run. -/
theorem exists_requestWith (rest : List String) :
    ∃ flags make noise, Request.of? (command :: rest) = requestWith flags make rest ∧
      (∀ flag, flag = .shots ∨ flag = .depolarizing →
        flags.find? (·.name == flag.name) = some flag) ∧
      ∀ values, (make values).options = values.runOptions noise := by
  have known {flag : Flag} (number : flag = .shots ∨ flag = .depolarizing) (last : Flag) :
      ([.settings, .shots, .depolarizing, last] ++ globalFlags).find? (·.name == flag.name) =
        some flag := by
    rcases number with rfl | rfl <;> rfl
  have request {flags make} (offered : task? command = some (flags, make)) :
      Request.of? (command :: rest) = requestWith (flags ++ globalFlags) make rest := by
    rcases List.mem_pair.mp inside with rfl | rfl <;> (cases offered; rfl)
  rcases List.mem_pair.mp inside with rfl | rfl
  · exact ⟨_, _, 0.0, request rfl, fun _ number => known number .save, fun _ => rfl⟩
  · exact ⟨_, _, 0.05, request rfl, fun _ number => known number .output, fun _ => rfl⟩

include number

/-- A command with one number is asked for with that number. -/
theorem request_of_joined (accepted : flag.accepts value = true) :
    ∃ task noise, Request.of? (command :: joined flag value) = some (.run ⟨none, none⟩ task) ∧
      task.options = Values.runOptions [(flag, value)] noise := by
  obtain ⟨flags, make, noise, request, known, options⟩ :=
    exists_requestWith inside (joined flag value)
  have source : engineSource [] [(flag, value)] = ⟨none, none⟩ := by
    rcases number with rfl | rfl <;> rfl
  refine ⟨make [(flag, value)], noise, ?_, options _⟩
  rw [request, requestWith, readFlags_joined (known flag number) accepted, ← source]
  rfl

/-- A number that cannot stand by itself is misuse. -/
theorem request_of_apart (untaken : flag.takes value = false) :
    Request.of? (command :: apart flag value) = none := by
  obtain ⟨flags, make, noise, request, known, -⟩ := exists_requestWith inside (apart flag value)
  rw [request, requestWith, apart,
    readFlags_of_known (argument_of_apart flag) (known flag number), readNext_eq_none untaken]
  rfl

end Commands

/-! ## Both spellings -/

/-- An option for a number is carried out alike in both spellings, wherever it stands and whatever
the program runs on: any count, and any noise that is written without a minus sign. With a minus
sign a noise is read where it is joined to its option, and its other spelling is misuse. -/
theorem spelling_of_numbers (value : String) :
    (∀ n : Int64, readCount? value = some n →
      (∀ command ∈ commands, ∃ task,
        Request.of? (command :: joined .shots value) = some (.run ⟨none, none⟩ task) ∧
          task.options.shots = n) ∧
      ∀ (m : Type → Type) [Monad m] [Host m] (before after : List String),
        (run (before ++ apart .shots value ++ after) : m Outcome) =
          run (before ++ joined .shots value ++ after)) ∧
    ∀ x : Float, Decimal.read? value = some x →
      (∀ command ∈ commands, ∃ task,
        Request.of? (command :: joined .depolarizing value) = some (.run ⟨none, none⟩ task) ∧
          task.options.depolarizing = x) ∧
      (value.toList.head? ≠ some '-' →
        ∀ (m : Type → Type) [Monad m] [Host m] (before after : List String),
          (run (before ++ apart .depolarizing value ++ after) : m Outcome) =
            run (before ++ joined .depolarizing value ++ after)) ∧
      (value.toList.head? = some '-' →
        ∀ command ∈ commands, Request.of? (command :: apart .depolarizing value) = none) := by
  have same {flag : Flag} (stands : flag.takes value = true) (m : Type → Type) [Monad m] [Host m]
      (before after : List String) :
      (run (before ++ apart flag value ++ after) : m Outcome) =
        run (before ++ joined flag value ++ after) := by
    unfold run
    rw [request_of_respelled (respelled_of_takes stands before after)]
  refine ⟨fun n read => ⟨fun command inside => ?_, ?_⟩,
    fun x read => ⟨fun command inside => ?_, ?_, ?_⟩⟩
  · have accepted : Flag.accepts .shots value = true := by simp [Flag.accepts, read]
    obtain ⟨task, noise, request, options⟩ := request_of_joined inside (.inl rfl) accepted
    exact ⟨task, request, by simp [options, Values.runOptions, read]⟩
  · exact same (takes_of_readCount? read)
  · have accepted : Flag.accepts .depolarizing value = true := by simp [Flag.accepts, read]
    obtain ⟨task, noise, request, options⟩ := request_of_joined inside (.inr rfl) accepted
    exact ⟨task, request, by simp [options, Values.runOptions, read]⟩
  · exact fun unsigned => same (takes_of_unsigned unsigned .depolarizing)
  · exact fun signed command inside =>
      request_of_apart inside (.inr rfl) (takes_of_signed read signed)

/-- Chaos runs with a negative count and with a quarter of noise, and the misuse of a negative
noise. -/
theorem spelling_of_numbers_ezph :
    let w : Machine := ⟨.empty, ""⟩
    (readCount? "-7" = some (-7) ∧
      (run ["ezph", "--shots", "-7", "--output", "r"] : OnMachine Outcome) w =
        (run ["ezph", "--shots=-7", "--output", "r"] : OnMachine Outcome) w) ∧
    (Decimal.read? "0.25" = some 0.25 ∧
      (run ["ezph", "--depolarizing", "0.25"] : OnMachine Outcome) w =
        (run ["ezph", "--depolarizing=0.25"] : OnMachine Outcome) w) ∧
    Decimal.read? "-0.25" = some (-0.25) ∧
      Request.of? ["ezph", "--depolarizing", "-0.25"] = none := by
  intro w
  have count : readCount? "-7" = some (-7) := rfl
  have quarter : Decimal.read? "0.25" = some 0.25 := rfl
  have negative : Decimal.read? "-0.25" = some (-0.25) := rfl
  refine ⟨⟨count, ?_⟩, ⟨quarter, ?_⟩, negative, ?_⟩
  · exact congrFun (((spelling_of_numbers "-7").1 _ count).2 OnMachine ["ezph"] ["--output", "r"]) w
  · have alike := ((spelling_of_numbers "0.25").2 _ quarter).2.1 (by decide)
    exact congrFun (alike OnMachine ["ezph"] []) w
  · exact ((spelling_of_numbers "-0.25").2 _ negative).2.2 (by decide) "ezph" (by decide)

/-- A chaos run with a negative noise is carried out if the noise is joined to its option, and
succeeds if draws are counts. It is misuse otherwise. -/
theorem negative_noise_apart :
    let w : Machine := ⟨.empty, ""⟩
    let joined := ((run ["ezph", "--depolarizing=-1"] : OnMachine Outcome) w).1
    let apart := ((run ["ezph", "--depolarizing", "-1"] : OnMachine Outcome) w).1
    Decimal.read? "-1" = some (-1) ∧ joined.exitCode ≠ 2 ∧ (HasCounts Float → joined.exitCode = 0) ∧
      apart.exitCode = 2 := by
  intro w joined apart
  let options : RunOptions Float := ⟨4096, (Decimal.read? "-1").getD 0.05⟩
  have asked : Request.of? ["ezph", "--depolarizing=-1"] =
      some (.run ⟨none, none⟩ (.ezph none options none)) := rfl
  rcases exists_ends (w := w) asked (ready_standard _ none options none) with
    ⟨outcome, machine, effects, ran, -, ends⟩
  have same : joined = outcome := congrArg Prod.fst ran
  rw [same]
  cases ends with
  | overflowed exceeds => exact absurd exceeds (Task.not_overflows_standard _)
  | aborted _ broken => exact ⟨rfl, nofun, fun counts => absurd counts broken, rfl⟩
  | published _ _ _ published =>
    cases published with
    | shown => exact ⟨rfl, nofun, fun _ => rfl, rfl⟩
    | saved asked => cases asked
    | refused asked => cases asked

end Nonlocal.Command
