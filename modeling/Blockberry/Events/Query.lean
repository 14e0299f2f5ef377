import Mathlib.Data.List.Basic

/-!
# Event queries

A query decides which events a subscriber receives, and has a text, which the bus uses to
tell subscriptions apart.
-/

namespace Blockberry.Events

structure Attribute where
  key : String
  value : String
  deriving DecidableEq, Repr

structure Event where
  kind : String
  attributes : List Attribute
  deriving DecidableEq, Repr

/-- The queries of the package; `hasAttribute` is `QueryAttribute`. The function of a
`QueryFunc` may be nil. -/
inductive Query where
  | all
  | eventKind (kind : String)
  | eventKinds (kinds : List String)
  | func (fn : Option (Event → Bool)) (description : String)
  | and (queries : List Query)
  | or (queries : List Query)
  | hasAttribute (key value : String)
  | attributeExists (key : String)

/-- The loops that put commas between texts. -/
def commaSeparated : List String → String
  | [] => ""
  | [text] => text
  | text :: texts => text ++ "," ++ commaSeparated texts

namespace Query

mutual

def isMatch (event : Event) : Query → Bool
  | all => true
  | eventKind kind => event.kind = kind
  | eventKinds kinds => event.kind ∈ kinds
  | func fn _ => fn.any (· event)
  | and queries => allMatch event queries
  | or queries => anyMatches event queries
  | hasAttribute key value => event.attributes.any fun attr => attr.key = key ∧ attr.value = value
  | attributeExists key => event.attributes.any fun attr => attr.key = key

def allMatch (event : Event) : List Query → Bool
  | [] => true
  | query :: queries => query.isMatch event && allMatch event queries

def anyMatches (event : Event) : List Query → Bool
  | [] => false
  | query :: queries => query.isMatch event || anyMatches event queries

end

mutual

def text : Query → String
  | all => "all"
  | eventKind kind => "kind=" ++ kind
  | eventKinds kinds => "kinds=[" ++ commaSeparated kinds ++ "]"
  | func _ description => if description = "" then "func" else description
  | and queries => "and(" ++ commaSeparated (texts queries) ++ ")"
  | or queries => "or(" ++ commaSeparated (texts queries) ++ ")"
  | hasAttribute key value => key ++ "=" ++ value
  | attributeExists key => "exists(" ++ key ++ ")"

def texts : List Query → List String
  | [] => []
  | query :: queries => query.text :: texts queries

end

end Query

end Blockberry.Events
