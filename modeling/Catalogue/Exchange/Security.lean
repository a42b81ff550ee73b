import Catalogue.Record.Basic
import Catalogue.Text.Blank

/-!
# Security markings

A graph may carry markings in several places; they are folded into one descriptor. The
classification is the most restrictive one, the policy has every token that occurs, and the
releasability narrows with every further marking.

* `stricterClassification`, `unitePolicies`, `narrowReleasability` — one step of the fold.
* `Descriptor.fold` — takes in one marking. Once a releasability has been narrowed to nothing, it
  stays nothing.
-/

namespace Catalogue.Exchange

open Catalogue.Text

/-! ## Merging -/

/-- How a further releasability narrows the running one. -/
inductive Narrowing where
  /-- The running value stays only if a new token equals the whole of it. -/
  | legacy
  /-- The running tokens stay that are also new tokens. -/
  | intersection
  deriving DecidableEq, Repr

namespace Narrowing

def all : List Narrowing := [legacy, intersection]

def name : Narrowing → String
  | legacy => "legacy"
  | intersection => "intersection"

def ofName? (s : String) : Option Narrowing := all.find? (fun n => n.name == s)

def toJson (n : Narrowing) : Json := .string n.name

def ofJson? (v : Json) : Option Narrowing := v.name?.bind ofName?

end Narrowing

/-- How restrictive a classification is, if it is one of the ranked ones. -/
def classificationLevel (s : String) : Option Nat :=
  match upper (trim s) with
  | "U" => some 0
  | "UNCLASSIFIED" => some 0
  | "R" => some 1
  | "RESTRICTED" => some 1
  | "C" => some 2
  | "CONFIDENTIAL" => some 2
  | "S" => some 3
  | "SECRET" => some 3
  | "TS" => some 4
  | "TOP SECRET" => some 4
  | _ => none

/-- Whether the second classification is more restrictive; a ranked one beats an unranked one. -/
def outranks (running new : String) : Bool :=
  match classificationLevel running, classificationLevel new with
  | some a, some b => a < b
  | none, some _ => true
  | _, none => false

/-- The more restrictive of two classifications, the running one if neither is. -/
def stricterClassification (running new : Option String) : Option String :=
  match running, new with
  | none, n => n
  | r, none => r
  | some r, some n => some (if outranks r n then n else r)

/-- Tokens with one space between neighbours; no token is no value. -/
def tokensText (tokens : List String) : Option String :=
  if tokens.isEmpty then none else some (unwords tokens)

/-- The items of a list that are not known yet, each once, after the known ones. -/
def union (known : List String) : List String → List String
  | [] => known
  | t :: rest => if t ∈ known then union known rest else union (known ++ [t]) rest

/-- Every token of both policies once, the running ones first. -/
def unitePolicies (running new : Option String) : Option String :=
  tokensText (union [] ((running.map words).getD [] ++ (new.map words).getD []))

/-- Whether a token of the running releasability stays. -/
def stays (mode : Narrowing) (running : String) (incoming : List String) (token : String) : Bool :=
  match mode with
  | .legacy => incoming.contains running
  | .intersection => incoming.contains token

/-- Narrows the running releasability; with nothing running the new one is taken. -/
def narrowReleasability (mode : Narrowing) (running new : Option String) : Option String :=
  match running, new with
  | none, none => none
  | none, some s => tokensText (words s)
  | some s, none => tokensText (words s)
  | some r, some n => tokensText (union [] ((words r).filter (stays mode r (words n))))

/-! ## Descriptors -/

/-- A security marking. -/
inductive Marking where
  | classification
  | policy
  | releasability
  deriving DecidableEq, Repr

namespace Marking

def all : List Marking := [classification, policy, releasability]

/-- The attribute that holds a marking. -/
def name : Marking → String
  | classification => "classification"
  | policy => "policy"
  | releasability => "releasability"

/-- The key of a record that holds a marking. -/
def key : Marking → String
  | classification => "security.classification"
  | policy => "security.policy"
  | releasability => "security.releasability"

def ofName? (s : String) : Option Marking := all.find? (fun m => m.name == s)

end Marking

/-- What the markings so far amount to. -/
structure Descriptor where
  classification : Option String := none
  policy : Option String := none
  releasability : Option String := none
  /-- Whether a releasability has been taken in. -/
  narrowed : Bool := false
  deriving DecidableEq, Repr

namespace Descriptor

/-- Takes in one marking. -/
def fold (mode : Narrowing) (d : Descriptor) (m : Marking) (s : String) : Descriptor :=
  match m with
  | .classification => { d with classification := stricterClassification d.classification (some s) }
  | .policy => { d with policy := unitePolicies d.policy (some s) }
  | .releasability =>
    { d with
      releasability :=
        if d.narrowed then
          d.releasability.bind fun r => narrowReleasability mode (some r) (some s)
        else narrowReleasability mode none (some s)
      narrowed := true }

/-- The value of a marking. -/
def get (d : Descriptor) : Marking → Option String
  | .classification => d.classification
  | .policy => d.policy
  | .releasability => d.releasability

def isEmpty (d : Descriptor) : Bool := Marking.all.all (fun m => (d.get m).isNone)

/-- Writes the markings that have a value into a record. -/
def apply (d : Descriptor) (r : Record) : Record :=
  Marking.all.foldl (fun r m =>
    match d.get m with
    | some s => r.set m.key (.text s)
    | none => r) r

end Descriptor

end Catalogue.Exchange
