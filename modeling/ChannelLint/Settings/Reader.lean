import ChannelLint.Json
import ChannelLint.Settings

/-!
# Settings from a JSON value

Every fault is collected, in the order of the fields. Unknown fields are skipped. Truth values may
be written as such, as the numbers zero and one, or as one of a few words.
-/
namespace ChannelLint

inductive InvalidKind where
  | notObject | notDictionary | notList | notText | brokenText | notLevel | notTruthWord
  | notTruthValue
  deriving DecidableEq, Repr

/-- Where a value does not fit, and why. -/
structure Invalid where
  place : List String
  kind : InvalidKind
  deriving DecidableEq, Repr

abbrev Checked (α : Type) := Except (List Invalid) α

namespace Settings

/-! ## Truth values -/

def falseWords : List String := ["0", "off", "f", "n", "no", "false"]

def trueWords : List String := ["1", "on", "t", "y", "yes", "true"]

/-- The truth value of a whole number. Numbers beyond 64 bits are not taken for one at all. -/
def truthOfWhole (n : Int) : Except InvalidKind Bool :=
  if n = 0 then .ok false
  else if n = 1 then .ok true
  else if Int64.minValue.toInt ≤ n && n ≤ Int64.maxValue.toInt then .error .notTruthWord
  else .error .notTruthValue

/-- The binary number nearest to a decimal fraction. -/
def nearest (mantissa exponent : Int) : Float :=
  let size := Float.ofScientific mantissa.natAbs (exponent < 0) exponent.natAbs
  if mantissa < 0 then -size else size

/-- The truth value of a fraction: only whole numbers can have one. -/
def truthOfFloat (x : Float) : Except InvalidKind Bool :=
  if x == 0.0 then .ok false
  else if x == 1.0 then .ok true
  else if x.floor == x && -9223372036854775808.0 < x && x < 9223372036854775808.0 then
    .error .notTruthWord
  else .error .notTruthValue

def truth : Json → Except InvalidKind Bool
  | .bool b => .ok b
  | .number (.whole n) => truthOfWhole n
  | .number (.decimal mantissa exponent) => truthOfFloat (nearest mantissa exponent)
  | .string text _ =>
    let word := String.ofList (text.toList.map Char.toLower)
    if falseWords.contains word then .ok false
    else if trueWords.contains word then .ok true
    else .error .notTruthWord
  | _ => .error .notTruthValue

/-! ## Fields -/

/-- Puts the place of a field in front of a fault. -/
def placed {α : Type} (key : String) (r : Except InvalidKind α) : Checked α :=
  r.mapError fun kind => [⟨[key], kind⟩]

def inside {α : Type} (key : String) (r : Checked α) : Checked α :=
  r.mapError (·.map fun invalid => { invalid with place := key :: invalid.place })

/-- All values, or all faults. -/
def gather {α : Type} : List (Checked α) → Checked (List α)
  | [] => .ok []
  | .ok a :: rest => (gather rest).map (a :: ·)
  | .error faults :: rest =>
    match gather rest with
    | .ok _ => .error faults
    | .error more => .error (faults ++ more)

def textItem : Json → Except InvalidKind String
  | .string text true => .ok text
  | .string _ false => .error .brokenText
  | _ => .error .notText

def textList : Json → Checked (List String)
  | .array items => gather (items.mapIdx fun i item => placed (toString i) (textItem item))
  | _ => .error [⟨[], .notList⟩]

def levelItem (j : Json) : Except InvalidKind Level :=
  match j.text?.bind Level.ofText? with
  | some level => .ok level
  | none => .error .notLevel

/-- The levels of a dictionary of rules. -/
def levelTable : Json → Checked (OrderedMap Level)
  | .object fields => do
    let levels ← gather (fields.entries.map fun (key, j) => placed key (levelItem j))
    return ⟨fields.keys.zip levels⟩
  | _ => .error [⟨[], .notDictionary⟩]

/-- A field that may be missing. -/
def fieldOr {α : Type} (j : Json) (key : String) (default : α) (check : Json → Checked α) :
    Checked α :=
  match j.field? key with
  | none => .ok default
  | some value => inside key (check value)

def truthField (value : Json) : Checked Bool :=
  (truth value).mapError fun kind => [⟨[], kind⟩]

/-- Two spellings of one field; the first one wins. -/
def usageField (j : Json) : Checked Bool :=
  match j.field? "checkUsage" with
  | some _ => fieldOr j "checkUsage" false truthField
  | none => fieldOr j "check_usage" false truthField

def faults {α : Type} : Checked α → List Invalid
  | .ok _ => []
  | .error invalids => invalids

/-- Settings from an object. -/
def ofJson (j : Json) : Checked Settings :=
  match j with
  | .object _ =>
    let rules := fieldOr j "rules" ∅ levelTable
    let globals := fieldOr j "globals" [] textList
    let ignores := fieldOr j "ignores" [] textList
    let usage := usageField j
    let fix := fieldOr j "fix" false truthField
    match rules, globals, ignores, usage, fix with
    | .ok rules, .ok globals, .ok ignores, .ok checkUsage, .ok fix =>
      .ok { rules, globals, ignores, checkUsage, fix }
    | _, _, _, _, _ =>
      .error (faults rules ++ faults globals ++ faults ignores ++ faults usage ++ faults fix)
  | _ => .error [⟨[], .notObject⟩]

/-- Settings with further levels over their own. -/
def override (s : Settings) (rules : OrderedMap Json) : Checked Settings := do
  let own := s.rules.map fun level => Json.string level.text true
  let merged ← inside "rules" (levelTable (.object (own.merge rules)))
  return { s with rules := merged }

/-- Rules in the settings that do not exist, in order. -/
def unknownRules (s : Settings) : List String :=
  (s.rules.keys.filter fun key => !Rule.defaultLevels.contains key).mergeSort (· ≤ ·)

end Settings

end ChannelLint
