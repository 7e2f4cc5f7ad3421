import TermGraph.Rule.Basic

/-!
# The journal

What happens while terms are matched, inserted and rewritten is recorded as a list of events. Recording
does not depend on how much a reader wants to see: every event has a level, and the events to show are
chosen when the journal is written out.

The journal is written line by line. Complete lines are passed on at once, and what follows the last of them
waits in a buffer of fixed size. `passedOn_eq_self` and `passedOn_eq_self_of_size_lt` say which messages come
through whole.
-/

namespace TermGraph

/-! ## Channels -/

/-- What kind of message an event makes. -/
inductive Channel where
  | error
  | warning
  | notice
  | info
  | debug
deriving DecidableEq, Repr

namespace Channel

/-- The name of the channel. -/
def name : Channel → String
  | .error => "Error"
  | .warning => "Warning"
  | .notice => "Notice"
  | .info => "Info"
  | .debug => "Debug"

/-- The channel with the given name. Case counts. -/
def ofName? (name : String) : Option Channel :=
  [Channel.error, .warning, .notice, .info, .debug].find? (fun channel => channel.name == name)

/-- The terminal colour of the channel. -/
def colour : Channel → String
  | .error => "1;31"
  | .warning => "1;33"
  | .notice => "36"
  | .info => "32"
  | .debug => "34"

/-- The name of the channel in its colour. -/
def label (channel : Channel) : String :=
  "\x1b[" ++ channel.colour ++ "m" ++ channel.name ++ "\x1b[0m"

theorem ofName?_name (channel : Channel) : ofName? channel.name = some channel := by
  cases channel <;> decide

end Channel

/-! ## Writing by lines -/

/-- How many bytes of an unfinished line can wait for its end. -/
def lineCapacity : Nat := 1024

/-- The text up to its last line end. -/
def completeLines (text : String) : String :=
  String.ofList (text.toList.reverse.dropWhile (· != '\n')).reverse

/-- The text after its last line end. -/
def unfinishedLine (text : String) : String :=
  String.ofList (text.toList.reverse.takeWhile (· != '\n')).reverse

/-- The two parts make up the text. -/
theorem completeLines_append_unfinishedLine (text : String) :
    completeLines text ++ unfinishedLine text = text := by
  rw [completeLines, unfinishedLine, ← String.ofList_append, ← List.reverse_append,
    List.takeWhile_append_dropWhile, List.reverse_reverse, String.ofList_toList]

theorem completeLines_eq_empty {text : String} (h : '\n' ∉ text.toList) : completeLines text = "" := by
  have hdrop : (text.toList.reverse ++ []).dropWhile (· != '\n') = [] :=
    List.dropWhile_append_of_pos fun c hc => bne_iff_ne.mpr fun hn => h (hn ▸ List.mem_reverse.mp hc)
  rw [List.append_nil] at hdrop
  rw [completeLines, hdrop]
  rfl

/-- What becomes of a text that is written by lines. A text without a line end is passed on as it is.
Otherwise its complete lines are passed on, and the rest only if it is shorter than the buffer it has to
wait in: a longer rest is lost. -/
def passedOn (text : String) : String :=
  if completeLines text = "" ∨ (unfinishedLine text).utf8ByteSize < lineCapacity then text
  else completeLines text

/-- A text of one line comes through whole, whatever its length. -/
theorem passedOn_eq_self {text : String} (h : '\n' ∉ text.toList) : passedOn text = text :=
  if_pos (.inl (completeLines_eq_empty h))

/-- A text shorter than the buffer comes through whole, whatever its lines. -/
theorem passedOn_eq_self_of_size_lt {text : String} (h : text.utf8ByteSize < lineCapacity) :
    passedOn text = text := by
  have hsize := congrArg String.utf8ByteSize (completeLines_append_unfinishedLine text)
  rw [String.utf8ByteSize_append] at hsize
  exact if_pos (.inr (by omega))

/-! ## Events -/

/-- Something that happened. -/
inductive Event where
  /-- The tree was put into a store, as this node. -/
  | interned (t : Term)
  /-- The term was copied into a store. -/
  | inserted (t copy : Term)
  /-- The term could not be copied. -/
  | insertionFailed (t : Term) (cycle : Cycle)
  /-- A pattern was tried on a subject. -/
  | matched (pattern subject : Term) (success : Bool)
  /-- Two terms were to be made equal. -/
  | unified (left right : Term) (success : Bool)
  /-- A condition of a rule did not hold for the term. -/
  | conditionFailed (condition : Condition) (t normalForm : Term)
  /-- A rule of a system rewrote the term. -/
  | rewritten (t reduct : Term) (rule : Rule)
  /-- A rule of a system ran into a cycle. -/
  | raised (rule : Rule) (cycle : Cycle) (t : Term)
  /-- The normalization of the term began. -/
  | normalizing (t : Term)
  /-- The normalization of the term ended. -/
  | normalized (t normalForm : Term)
  /-- The normalization of the term ran into a cycle. -/
  | normalizationFailed (t : Term) (cycle : Cycle)
  /-- Nothing rewrites the term. -/
  | irreducible (t : Term)
  /-- Anything else that is worth a message. -/
  | note (channel : Channel) (level : Int) (message : String)

namespace Event

/-- The channel an event is reported on. -/
def channel : Event → Channel
  | .interned .. | .inserted .. | .insertionFailed .. | .matched .. | .unified ..
  | .conditionFailed .. | .raised .. | .irreducible .. => .debug
  | .rewritten .. | .normalizing .. | .normalized .. => .info
  | .normalizationFailed .. => .error
  | .note channel _ _ => channel

/-- How much a reader must want to see for the event to be shown: failures at 1, the progress of
normalization at 4, the details of matching and insertion at 5. -/
def level : Event → Int
  | .normalizationFailed .. => 1
  | .conditionFailed .. | .rewritten .. | .raised .. | .normalizing .. | .normalized .. => 4
  | .interned .. | .inserted .. | .insertionFailed .. | .matched .. | .unified ..
  | .irreducible .. => 5
  | .note _ level _ => level

/-- A pattern and a subject with the sign for matching between them. -/
def equation (pattern subject : Term) : String :=
  pattern.render .matcher ++ " ≪ " ++ subject.render .matcher

/-- The event in words. -/
def message : Event → String
  | .interned t => "Interned " ++ t.text ++ " at " ++ toString t.position ++ "."
  | .inserted t copy => "Inserted " ++ t.text ++ " as " ++ copy.text ++ "."
  | .insertionFailed t cycle => "Insertion of " ++ t.text ++ " failed. " ++ cycle.message
  | .matched pattern subject success =>
    equation pattern subject ++ (if success then " matched" else " failed")
  | .unified left right success =>
    "unify " ++ equation left right ++ (if success then " succeeded" else " failed")
  | .conditionFailed condition t normalForm =>
    "Condition " ++ condition.text ++ " failed for " ++ t.text ++ ": " ++ normalForm.text ++
      " is normal."
  | .rewritten t reduct rule => t.text ++ " -> " ++ reduct.text ++ " by " ++ rule.text
  | .raised rule cycle t => rule.text ++ " raised " ++ cycle.message ++ " on " ++ t.text
  | .normalizing t => "Normalizing " ++ t.text
  | .normalized t normalForm => t.text ++ " normalizes to " ++ normalForm.text
  | .normalizationFailed t cycle => "Normalizing " ++ t.text ++ " failed. " ++ cycle.message
  | .irreducible t => t.text ++ " is a normal form"
  | .note _ _ message => message

/-- The text that reports the event. -/
def report (event : Event) : String := event.channel.label ++ ": " ++ event.message

end Event

/-- Events in the order in which they happened. -/
abbrev Journal := Array Event

/-- The reports of the events that a reader with the given verbosity wants to see, each with a line end. -/
def Journal.render (verbosity : Int) (journal : Journal) : String :=
  String.join ((journal.toList.filter fun event => event.level ≤ verbosity).map fun event =>
    passedOn event.report ++ "\n")

end TermGraph
