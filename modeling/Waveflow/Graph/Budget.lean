import Waveflow.Double
import Waveflow.Refusal
import Waveflow.Json.Basic

/-!
# Budgets

A budget limits an amount, or does not limit it.  Budgets are ordered with the tighter first; the
order on amounts is total on all doubles, the sign and the bits deciding where the values do not, so a
budget carries its amount by its bits.
-/

namespace Waveflow

/-- A limit on an amount, or none. -/
inductive Budget where
  | bounded (amount : Double)
  | unbounded
deriving Repr, BEq

namespace Budget

instance : Inhabited Budget := ⟨unbounded⟩

/-- The budget of a finite amount that is not negative. -/
def make (amount : Double) : Except Refusal Budget :=
  if amount.value.isFinite && !(amount.value < 0.0) then .ok (bounded amount) else .error (.badBudget amount.value)

/-- The limit, if there is one. -/
def amount? : Budget → Option Float
  | bounded amount => some amount.value
  | unbounded => none

def isUnbounded : Budget → Bool
  | bounded _ => false
  | unbounded => true

/-- The usage goes over the limit. -/
def exceededBy (b : Budget) (usage : Float) : Bool :=
  match b with
  | bounded amount => amount.value < usage
  | unbounded => false

/-- Tighter budgets first, no limit last. -/
def compare : Budget → Budget → Ordering
  | bounded a, bounded b => Ord.compare a.rank b.rank
  | bounded _, unbounded => .lt
  | unbounded, bounded _ => .gt
  | unbounded, unbounded => .eq

/-- How a budget is written. -/
def text : Budget → String
  | bounded amount => numberText amount.value
  | unbounded => "unbounded"

def toJson : Budget → Json
  | bounded amount => .obj [("bounded", .float amount.value)]
  | unbounded => .str "unbounded"

def ofJson? (j : Json) : Option Budget := do
  match ← j.variant? with
  | ("bounded", some x) => x.float?.map (fun x => bounded (.ofFloat x))
  | ("unbounded", content) => if Json.isBare content then some unbounded else none
  | _ => none

end Budget

end Waveflow
