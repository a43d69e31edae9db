import AgentLang.Text.Lines

/-!
# Built-in functions

Each built-in has the name that the emitted code calls. Some of those names are defined by helpers,
which stand once in the emitted code, in the order of the list of built-ins.
-/

namespace AgentLang.Target

inductive Builtin where
  | print
  | input
  | read
  | write
  | readImage
  | fetch
  | fetchJSON
  | fetchJson
  | sleep
  deriving DecidableEq, Repr

namespace Builtin

def all : List Builtin :=
  [.print, .input, .read, .write, .readImage, .fetch, .fetchJSON, .fetchJson, .sleep]

/-- The name in source texts. -/
def name : Builtin → String
  | .print => "print"
  | .input => "input"
  | .read => "read"
  | .write => "write"
  | .readImage => "readImage"
  | .fetch => "fetch"
  | .fetchJSON => "fetchJSON"
  | .fetchJson => "fetchJson"
  | .sleep => "sleep"

def ofName? (name : String) : Option Builtin :=
  all.find? (·.name == name)

/-- A function that has to be defined in the emitted code. -/
inductive Helper where
  | input
  | read
  | write
  | readImage
  | fetch
  | fetchJson
  deriving DecidableEq, Repr

def helper? : Builtin → Option Helper
  | .print => none
  | .input => some .input
  | .read => some .read
  | .write => some .write
  | .readImage => some .readImage
  | .fetch => some .fetch
  | .fetchJSON => some .fetchJson
  | .fetchJson => some .fetchJson
  | .sleep => none

namespace Helper

/-- The name that the helper defines. -/
def name : Helper → String
  | .input => "_builtin_input"
  | .read => "_builtin_read"
  | .write => "_builtin_write"
  | .readImage => "_builtin_read_image"
  | .fetch => "_builtin_fetch"
  | .fetchJson => "_builtin_fetch_json"

/-- The definition, with a line end behind its last line. -/
def source : Helper → String
  | .input => Text.joinLines [
      "def _builtin_input(prompt=\"\"):",
      "    return input(prompt)",
      ""]
  | .read => Text.joinLines [
      "def _builtin_read(path):",
      "    with open(path, encoding=\"utf-8\") as f:",
      "        return f.read()",
      ""]
  | .write => Text.joinLines [
      "def _builtin_write(path, content):",
      "    with open(path, \"w\", encoding=\"utf-8\") as f:",
      "        f.write(str(content))",
      "    return True",
      ""]
  | .readImage => Text.joinLines [
      "def _builtin_read_image(path):",
      "    import base64",
      "    import mimetypes",
      "",
      "    mime_type = mimetypes.guess_type(path)[0] or \"image/png\"",
      "    with open(path, \"rb\") as f:",
      "        data = base64.b64encode(f.read()).decode(\"ascii\")",
      "    return \x7b\"type\": \"image\", \"mime_type\": mime_type, \"data\": data\x7d",
      ""]
  | .fetch => Text.joinLines [
      "def _builtin_fetch(url):",
      "    import urllib.request",
      "",
      "    with urllib.request.urlopen(url) as response:",
      "        return response.read().decode(\"utf-8\")",
      ""]
  | .fetchJson => Text.joinLines [
      "def _builtin_fetch_json(url):",
      "    import json",
      "    import urllib.request",
      "",
      "    with urllib.request.urlopen(url) as response:",
      "        return json.loads(response.read().decode(\"utf-8\"))",
      ""]

end Helper

/-- The name that the emitted code calls. -/
def target (builtin : Builtin) : String :=
  match builtin.helper? with
  | some helper => helper.name
  | none => if builtin = .sleep then "time.sleep" else builtin.name

/-- The name that the emitted code calls for a name of the source, which may be no built-in. -/
def resolve (name : String) : String :=
  ((ofName? name).map target).getD name

/-- The helpers that some built-ins need, each once. -/
def helpers (used : List Builtin) : List Helper :=
  (all.filter (· ∈ used)).foldl (fun found builtin =>
    match builtin.helper? with
    | some helper => if helper ∈ found then found else found ++ [helper]
    | none => found) []

/-- The definitions of the helpers that some built-ins need. -/
def helperSource (used : List Builtin) : String :=
  "\n\n".intercalate ((helpers used).map Helper.source)

end Builtin
end AgentLang.Target
