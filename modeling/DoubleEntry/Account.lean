/-!
# Accounts

An account is known by its full name, `Assets:Bank:Checking`. The components between the colons
place it in a tree: `Assets:Bank` is above it, and so is `Assets`.

* `Account.isWithin`: whether an account is another one or below it.
* `Account.ancestors`: the accounts above one.
* `Account.isBefore`: the order of a walk through the tree, each account after those above it.
-/

namespace DoubleEntry

/-- An account, by its full name with components between colons. -/
abbrev Account := String

namespace Account

/-- The components of the name, as characters. -/
def components (account : Account) : List (List Char) := account.toList.splitOn ':'

/-- Whether the account is `top` or below it. -/
def isWithin (account top : Account) : Bool :=
  account == top || (top.toList ++ [':']).isPrefixOf account.toList

/-- What stands before each colon of a name, from the left; `above` is what was passed. -/
def partsBeforeColons (above : List Char) : List Char → List (List Char)
  | [] => []
  | c :: rest =>
    let deeper := partsBeforeColons (above ++ [c]) rest
    if c = ':' then above :: deeper else deeper

/-- The accounts above one, the highest first. -/
def ancestors (account : Account) : List Account :=
  (partsBeforeColons [] account.toList).map String.ofList

/-- Whether the account comes no later than `other` when accounts are ordered component by
component. So `Assets:Cash` comes right after `Assets`, and before `Assets-Old`. -/
def isBefore (account other : Account) : Bool :=
  !other.components.lex account.components fun a b => a.lex b fun c d => c.toNat < d.toNat

end Account

end DoubleEntry
