import Predictive.Proofs.Volume

namespace Predictive

namespace Event

/-- The events that are logged at a level. -/
def upTo (level : Level) (events : List Event) : List Event :=
  events.filter fun e => e.level.rank ≤ level.rank

def lines (events : List Event) : String := String.join (events.map line)

theorem upTo_upTo {level level' : Level} (h : level.rank ≤ level'.rank) (events : List Event) :
    upTo level (upTo level' events) = upTo level events := by
  rw [upTo, upTo, upTo, List.filter_filter]
  refine List.filter_congr fun e _ => ?_
  simp only [← Bool.decide_and, decide_eq_decide, and_iff_left_iff_imp]
  exact fun he => Nat.le_trans he h

end Event

namespace Invocation

variable {args args' : List String} {invocation invocation' : Invocation}

/-- All that happens and can be logged. -/
def events (s : Sources) : Invocation → List Event
  | run o => (o.session s).events
  | tell _ => []

/-- What is written about a failure, behind the log. -/
def report (s : Sources) : Invocation → String
  | run o =>
    match (o.session s).result with
    | .ok _ => ""
    | .error failure => "Error: " ++ failure.message ++ "\n"
  | tell _ => ""

theorem level_of_ofCommandLine? {o : Options} (h : ofCommandLine? args = some (.run o)) :
    o.level = Arguments.level args := by
  have ho := run.inj (splits_of_ofArguments? h).volume_eq
  rw [ho, Options.level_withVolume, Arguments.level, Options.empty, Nat.zero_add, Bool.false_or]

theorem log_response (h : ofCommandLine? args = some invocation) (s : Sources) :
    (invocation.response s).log =
      Event.lines (Event.upTo (Arguments.level args) (invocation.events s)) ++
        invocation.report s := by
  cases invocation with
  | tell => rfl
  | run o =>
    rw [← level_of_ofCommandLine? h, response, Session.response, report]
    cases (o.session s).result with
    | error failure =>
      simp only [String.append_assoc]
      rfl
    | ok texts => exact (String.append_empty).symm

theorem events_withVolume (invocation : Invocation) (s : Sources) (v : Nat) (q : Bool) :
    (invocation.withVolume v q).events s = invocation.events s := by
  cases invocation <;> rfl

theorem report_withVolume (invocation : Invocation) (s : Sources) (v : Nat) (q : Bool) :
    (invocation.withVolume v q).report s = invocation.report s := by
  cases invocation <;> rfl

theorem response_withVolume (invocation : Invocation) (s : Sources) (v : Nat) (q : Bool) :
    ((invocation.withVolume v q).response s).code = (invocation.response s).code ∧
      ((invocation.withVolume v q).response s).output = (invocation.response s).output := by
  cases invocation with
  | tell => exact ⟨rfl, rfl⟩
  | run o =>
    rw [withVolume, response, response, Options.session_withVolume, Session.response,
      Session.response]
    cases (o.session s).result <;> exact ⟨rfl, rfl⟩

/-- Command lines that differ in flags for the volume only are read to the same but the volume. -/
theorem withVolume_eq_of_unvoiced (h : ofCommandLine? args = some invocation)
    (h' : ofCommandLine? args' = some invocation')
    (hsame : Arguments.unvoiced args = Arguments.unvoiced args') :
    invocation.withVolume 0 false = invocation'.withVolume 0 false := by
  have hread := (splits_of_ofArguments? h).unvoiced_eq 0 false
  have hread' := (splits_of_ofArguments? h').unvoiced_eq 0 false
  rw [hsame, hread'] at hread
  exact (Option.some.inj hread).symm

end Invocation

/-- Two command lines that can be understood, and are the same without their flags for the volume,
give the same output, exit code and report of a failure. In front of the report each logs what
happens, up to the level that its flags ask for; so what is logged at the lower level is, in order,
what is logged at the higher one as far as it is of the lower level. -/
theorem volume_only_observes (b : ByteSources) {args args' : List String}
    {invocation invocation' : Invocation}
    (h : Invocation.ofCommandLine? args = some invocation)
    (h' : Invocation.ofCommandLine? args' = some invocation')
    (hsame : Arguments.unvoiced args = Arguments.unvoiced args') :
    let r := invocation.response b.decoded
    let r' := invocation'.response b.decoded
    let report := invocation.report b.decoded
    let logged := Event.upTo (Arguments.level args) (invocation.events b.decoded)
    let logged' := Event.upTo (Arguments.level args') (invocation'.events b.decoded)
    answer? b args = some r ∧ answer? b args' = some r' ∧
    r.code = r'.code ∧ r.output = r'.output ∧
    r.log = Event.lines logged ++ report ∧ r'.log = Event.lines logged' ++ report ∧
    ((Arguments.level args).rank ≤ (Arguments.level args').rank →
      logged = Event.upTo (Arguments.level args) logged') := by
  intro r r' report logged logged'
  have heq := Invocation.withVolume_eq_of_unvoiced h h' hsame
  have hresponse := invocation.response_withVolume b.decoded 0 false
  have hresponse' := invocation'.response_withVolume b.decoded 0 false
  rw [heq] at hresponse
  have hevents : invocation.events b.decoded = invocation'.events b.decoded := by
    rw [← invocation.events_withVolume b.decoded 0 false, heq, invocation'.events_withVolume]
  have hreport : invocation.report b.decoded = invocation'.report b.decoded := by
    rw [← invocation.report_withVolume b.decoded 0 false, heq, invocation'.report_withVolume]
  refine ⟨by rw [answer?, h]; rfl, by rw [answer?, h']; rfl, hresponse.1.symm.trans hresponse'.1,
    hresponse.2.symm.trans hresponse'.2, Invocation.log_response h _, ?_, ?_⟩
  · simp only [report, hreport]
    exact Invocation.log_response h' _
  · intro hle
    simp only [logged, logged', Event.upTo_upTo hle, hevents]

/-- A run that fails behind its analysis, without a log and with one. -/
theorem volume_only_observes_failure :
    let b := Directory.byteSources ⟨[("g", "S -> B".toUTF8)]⟩ .empty
    let args := ["-q", "validate", "-vfg"]
    let args' := ["validate", "-fg", "--verbose"]
    let o : Options := ⟨[.validation], some "g", [], false, false, false, 1, true⟩
    let o' : Options := ⟨[.validation], some "g", [], false, false, false, 1, false⟩
    Invocation.ofCommandLine? args = some (.run o) ∧
    Invocation.ofCommandLine? args' = some (.run o') ∧
    Arguments.unvoiced args = Arguments.unvoiced args' ∧
    (o.answer b).code = (o'.answer b).code ∧
    (o.answer b).log = "Error: validate needs at least one -i input\n" ∧
    (o'.answer b).log = "[WARN  ll1_helper::grammar::grammar] " ++
      "S: \"B\" has no productions and is treated as a terminal\n" ++
      "[INFO  ll1_helper] parsed 1 productions, start symbol S\n" ++
      "Error: validate needs at least one -i input\n" := by
  intro b args args' o o'
  have h : Invocation.ofCommandLine? args = some (.run o) := rfl
  have h' : Invocation.ofCommandLine? args' = some (.run o') := rfl
  have hsame : Arguments.unvoiced args = Arguments.unvoiced args' := by decide +kernel
  obtain ⟨-, -, hcode, -, hlog, hlog', -⟩ := volume_only_observes b h h' hsame
  refine ⟨h, h', hsame, hcode, hlog.trans ?_, hlog'.trans ?_⟩
  · decide +kernel
  · decide +kernel

end Predictive
