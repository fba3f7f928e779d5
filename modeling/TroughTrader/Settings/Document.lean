import TroughTrader.Settings.Slots
import TroughTrader.Toml.Document

/-!
# Settings from a configuration document

A configuration is a TOML document with a key for each setting that is not to keep its standard
value. Whether it can be read at all comes first, whether it is a document with these keys comes
second, and only then are the settings checked.
-/

namespace TroughTrader

inductive FileFault where
  | notFound
  | notUtf8
  deriving DecidableEq

inductive ConfigError where
  | unreadable (path : String) (fault : FileFault)
  | malformed
  | faulty (fault : SettingsFault)
  deriving DecidableEq

namespace FileFault

def message : FileFault → String
  | notFound => "no such file"
  | notUtf8 => "the file is not UTF-8 text"

end FileFault

namespace ConfigError

def message : ConfigError → String
  | unreadable path fault => "failed to read config " ++ path ++ ": " ++ fault.message
  | malformed => "failed to parse config"
  | faulty fault => fault.message

end ConfigError

namespace Toml

def count? : Toml → Option UInt64
  | .integer n => if 0 ≤ n ∧ n.toNat < UInt64.size then some (UInt64.ofNat n.toNat) else none
  | _ => none

/-- A number; an integer stands for the binary64 nearest to it. -/
def number? : Toml → Option Float
  | .integer n => some (Binary64.nearest (n < 0) n.natAbs 1)
  | .real x => some x
  | _ => none

def isEmpty : Toml → Bool
  | .array items => items.isEmpty
  | .table _ members => members.isEmpty
  | _ => false

/-- A choice: its name, or a table with the name as its only key and nothing under it. -/
def smallSize? : Toml → Option SmallSize
  | .string s => SmallSize.ofKey? s
  | .table _ [(name, v)] => if v.isEmpty then SmallSize.ofKey? name else none
  | _ => none

end Toml

namespace Settings

def ofMembers? (members : Toml.Members) : Option Settings := do
  ofSlots? Toml.count? Toml.number? Toml.smallSize? (← Record.slots? true keys members)

def checked (s : Settings) : Except ConfigError Settings :=
  match s.fault? with
  | none => .ok s
  | some fault => .error (.faulty fault)

def ofDocument (text : String) : Except ConfigError Settings :=
  match (Toml.ofText? text).bind ofMembers? with
  | none => .error .malformed
  | some s => s.checked

/-- The settings that a file describes. The contents are missing where there is no file. -/
def load (path : String) (contents : Option ByteArray) : Except ConfigError Settings :=
  match contents with
  | none => .error (.unreadable path .notFound)
  | some bytes =>
    match String.fromUTF8? bytes with
    | none => .error (.unreadable path .notUtf8)
    | some text => ofDocument text

end Settings
end TroughTrader
