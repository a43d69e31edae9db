import AgentLang.Toml.Value

/-!
# Building configuration documents

Tables are declared by headers, by dotted keys and by inline tables. What was declared in one way
cannot be declared again in another, and inline values cannot be extended.
-/

namespace AgentLang.Toml

/-- The names on the way to a value. -/
abbrev KeyPath := List String

abbrev Entries := List (String × Toml)

def setEntry (key : String) (value : Toml) : Entries → Entries
  | [] => [(key, value)]
  | (known, old) :: rest =>
    if known = key then (key, value) :: rest else (known, old) :: setEntry key value rest

/-- Changes the table at the end of a way, making tables where there are none. Where lists of tables
are opened, the way leads through the last table of a list. -/
def changeAt (openLists : Bool) (change : Entries → Option Entries) :
    KeyPath → Entries → Option Entries
  | [], entries => change entries
  | key :: rest, entries =>
    match entries.lookup key with
    | none => do
      let inner ← changeAt openLists change rest []
      return setEntry key (.table inner) entries
    | some (.table inner) => do
      let inner ← changeAt openLists change rest inner
      return setEntry key (.table inner) entries
    | some (.array items) =>
      match openLists, items.getLast? with
      | true, some (.table inner) => do
        let inner ← changeAt openLists change rest inner
        return setEntry key (.array (items.dropLast ++ [.table inner])) entries
      | _, _ => none
    | some _ => none

/-- A new entry of a table. -/
def addEntry (key : String) (value : Toml) (entries : Entries) : Option Entries :=
  if (entries.lookup key).isSome then none else some (setEntry key value entries)

/-- A new table at the end of a list of tables. -/
def addTable (key : String) (entries : Entries) : Option Entries :=
  match entries.lookup key with
  | none => some (setEntry key (.array [.table []]) entries)
  | some (.array items) => some (setEntry key (.array (items ++ [.table []])) entries)
  | some _ => none

/-- A document under construction. -/
structure Document where
  entries : Entries := []
  /-- Tables that no header may declare. -/
  declared : List KeyPath := []
  /-- Tables that dotted keys made since the last header. -/
  dotted : List KeyPath := []
  /-- Inline values, which stay as they are with everything inside. -/
  frozen : List KeyPath := []
  /-- The way of the last header. -/
  header : KeyPath := []

namespace Document

def isFrozen (document : Document) (path : KeyPath) : Bool :=
  document.frozen.any (·.isPrefixOf path)

/-- What dotted keys made cannot be declared by headers from here on. -/
def closeSection (document : Document) : Document :=
  { document with declared := document.declared ++ document.dotted, dotted := [] }

/-- The header of a table. -/
def openTable (path : KeyPath) (document : Document) : Option Document := do
  let document := document.closeSection
  if path ∈ document.declared ∨ document.isFrozen path then none
  let entries ← changeAt true some path document.entries
  return { document with
    entries := entries, declared := path :: document.declared, header := path }

/-- The header of the next table of a list. Everything inside may be declared again. -/
def openListItem (path : KeyPath) (document : Document) : Option Document := do
  let document := document.closeSection
  if document.isFrozen path then none
  let outside (known : KeyPath) : Bool := !path.isPrefixOf known
  let last ← path.getLast?
  let entries ← changeAt true (addTable last) path.dropLast document.entries
  return { document with
    entries := entries
    declared := path :: document.declared.filter outside
    frozen := document.frozen.filter outside
    header := path }

/-- The ways to the tables that a dotted key passes through. -/
def passed (header : KeyPath) (path : KeyPath) : List KeyPath :=
  (List.range (path.length - 1)).map fun i => header ++ path.take (i + 1)

/-- A key with its value, in the table of the last header. -/
def add (path : KeyPath) (value : Toml) (document : Document) : Option Document := do
  let last ← path.getLast?
  let inner := passed document.header path
  if inner.any (· ∈ document.declared) then none
  let place := document.header ++ path.dropLast
  if !place.isEmpty ∧ document.isFrozen place then none
  let entries ← changeAt true (addEntry last value) place document.entries
  return { document with
    entries := entries
    dotted := document.dotted ++ inner
    frozen := if value.isContainer then (document.header ++ path) :: document.frozen
      else document.frozen }

end Document

/-- An inline table under construction. -/
structure Inline where
  entries : Entries := []
  frozen : List KeyPath := []

/-- A key with its value in an inline table. -/
def Inline.add (path : KeyPath) (value : Toml) (table : Inline) : Option Inline := do
  let last ← path.getLast?
  if table.frozen.any (·.isPrefixOf path) then none
  let entries ← changeAt false (addEntry last value) path.dropLast table.entries
  return {
    entries := entries
    frozen := if value.isContainer then path :: table.frozen else table.frozen }

end AgentLang.Toml
