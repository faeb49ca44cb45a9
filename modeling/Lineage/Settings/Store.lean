import Lineage.Files.Basic
import Lineage.Settings.Basic

/-! # Stored settings -/

namespace Lineage.Settings

/-- Why settings could not be loaded or stored. -/
inductive Fault where
  | file (fault : Files.Fault)
  | malformed
  /-- There is a file already. -/
  | occupied (path : String)
deriving DecidableEq, Repr

def Fault.message : Fault → String
  | file fault => fault.message
  | malformed => "TOML parse error"
  | occupied path => s!"config already exists at {path} (use --force to overwrite)"

/-- The settings in a file, if there is one. -/
def load (files : Files) (path : String) : Except Fault (Option Settings) :=
  if files.holds path then
    match files.read path with
    | .error fault => .error (.file fault)
    | .ok text =>
      match parse? text with
      | none => .error .malformed
      | some settings => .ok (some settings)
  else .ok none

/-- Writes the settings into a file. One that exists is only replaced by `force`. -/
def store (files : Files) (path : String) (settings : Settings) (force : Bool) :
    Except Fault Files :=
  if files.holds path && !force then .error (.occupied path)
  else
    match files.write path settings.render with
    | .error fault => .error (.file fault)
    | .ok files => .ok files

end Lineage.Settings
