import Mathlib.Data.Finmap

/-! Alert rules as the repository stores them: label sets, principals with their
capabilities, threshold and recording rules. Record names of a group and notification targets
of a rule are distinct, as validation demands. -/
namespace Pulso.Alerting

inductive Capability where
  | read | rulesWrite | auditRead | preview | evaluate | imports | record
  deriving DecidableEq, Repr

inductive PrincipalType where
  | human | agent | service
  deriving DecidableEq, Repr

structure Principal where
  id : String
  type : PrincipalType
  capabilities : List Capability
  deriving DecidableEq, Repr

def authorize (principal : Principal) (capability : Capability) (classification : List Capability) : Bool :=
  (capability :: classification).all (principal.capabilities.contains ·)

/-- Label sets are maps: two of them are equal when they hold the same pairs. -/
abbrev LabelSet := Finmap (fun _ : String => String)

namespace LabelSet

def text (value : String) (limit : Nat) : Bool := 1 ≤ value.utf8ByteSize && value.utf8ByteSize ≤ limit

/-- The bounds of `Rule.labels?`; a `String` is valid UTF-8 by its type. -/
def valid (labels : LabelSet) : Bool :=
  decide (labels.entries.card ≤ 32 ∧ ∀ pair ∈ labels.entries, text pair.1 128 = true ∧ pair.2.utf8ByteSize ≤ 512)

def nameStart (c : Char) : Bool := c.isAlpha || c = '_'

/-- `\A[a-zA-Z_][a-zA-Z0-9_]*\z` within 128 bytes. -/
def labelName (name : String) : Bool :=
  text name 128 && match name.toList with
    | [] => false
    | first :: rest => nameStart first && rest.all (fun c => nameStart c || c.isDigit)

def namesValid (labels : LabelSet) : Bool :=
  decide (∀ pair ∈ labels.entries, labelName pair.1 = true)

theorem filterNodupKeys {entries : Multiset (Sigma fun _ : String => String)}
    (keep : (Sigma fun _ : String => String) → Prop) [DecidablePred keep]
    (distinct : entries.NodupKeys) : (entries.filter keep).NodupKeys := by
  induction entries using Quotient.inductionOn with
  | h entries =>
    have rows : entries.NodupKeys := distinct
    exact rows.sublist List.filter_sublist

/-- `Map.reject` of the empty values. -/
def dropEmpty (labels : LabelSet) : LabelSet :=
  ⟨labels.entries.filter (fun pair => pair.2 ≠ ""),filterNodupKeys _ labels.nodupKeys⟩

/-- The labels of a recorded series: the rule's over the sample's, no empty value, and the
record name. -/
def recorded (name : String) (rule sample : LabelSet) : LabelSet :=
  (dropEmpty (rule ∪ sample)).insert "__name__" name

def metricName (labels : LabelSet) : Option String := labels.lookup "__name__"

@[simp] theorem recordedName (name : String) (rule sample : LabelSet) :
    (recorded name rule sample).metricName = some name := by
  simp [recorded,metricName]

end LabelSet

inductive Kind where
  | grafana | promqlThreshold | logqlThreshold | expressionThreshold | promqlRecording
  | promqlRecordingGroup
  deriving DecidableEq, Repr

def Kind.recording : Kind → Bool
  | promqlRecording | promqlRecordingGroup => true
  | _ => false

structure Member where
  record : String
  expr : String
  labels : LabelSet
  deriving DecidableEq

structure Rule where
  kind : Kind
  name : String
  query : String
  enabled : Bool
  cadenceMs : Nat
  labels : LabelSet
  notificationTargets : List String
  rules : List Member
  -- thresholds, timers, expressions and imported definitions: carried, never read here
  rest : String
  distinctRecords : (rules.map Member.record).Nodup
  distinctTargets : notificationTargets.Nodup
  deriving DecidableEq

def Rule.classification (rule : Rule) : List Capability :=
  match rule.kind with
  | .grafana => [.imports]
  | .promqlRecording | .promqlRecordingGroup => [.record]
  | _ => []

/-- A notification binding. Its version is the digest of the descriptor, so the descriptor
itself stands for it. -/
structure Target where
  id : String
  secretEnv : String
  deriving DecidableEq, Repr

inductive Action where
  | create | update | delete | restore
  deriving DecidableEq, Repr

inductive RuleState where
  | active | disabled | deleted
  deriving DecidableEq, Repr

def ruleState (action : Action) (rule : Rule) : RuleState :=
  match action with
  | .delete => .deleted
  | _ => if rule.enabled then .active else .disabled

end Pulso.Alerting
