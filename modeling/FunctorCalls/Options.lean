import FunctorCalls.Format.Text

namespace FunctorCalls

/-- The callables by which a program is entered. Without any, a graph is not trimmed. -/
structure Options where
  entryPoints : List Name
  deriving DecidableEq

inductive OptionsError
  /-- The file cannot be read or written, or does not hold text. -/
  | io
  | invalid
  deriving DecidableEq

/-- Files that are written and read as a whole, each under a path. Either may fail; a write that
does not fail leaves what was to be written. -/
structure FileSystem where
  State : Type
  Path : Type
  read : State → Path → Option (List UInt8)
  write : State → Path → List UInt8 → Option State
  read_write {s s' : State} {path : Path} {bytes : List UInt8} :
    write s path bytes = some s' → read s' path = some bytes

inductive Location
  /-- Nothing, in a folder that does not exist either. -/
  | nowhere
  | vacant
  | folder
  | file (bytes : List UInt8)

namespace Location

def read : Location → Option (List UInt8)
  | file bytes => some bytes
  | _ => none

def write : Location → List UInt8 → Option Location
  | nowhere, _ | folder, _ => none
  | vacant, bytes | file _, bytes => some (file bytes)

theorem read_write {l l' : Location} {bytes : List UInt8} (h : l.write bytes = some l') :
    l'.read = some bytes := by
  cases l with
  | nowhere | folder => cases h
  | vacant | file =>
    cases h
    rfl

end Location

def FileSystem.single : FileSystem where
  State := Location
  Path := Unit
  read l _ := l.read
  write l _ bytes := l.write bytes
  read_write := Location.read_write

namespace Options

instance : Format Options where
  shape := .record [("entry_points", .defaulted (.array []), Format.shape (List Name))]
  toJson o := .object [("entry_points", Format.toJson o.entryPoints)]
  ofJson? | .object [("entry_points", ns)] => return ⟨← Format.ofJson? ns⟩
          | _ => none

def fileText (o : Options) : String := (Format.toJson o).print .indented

def fileBytes (o : Options) : List UInt8 := o.fileText.toUTF8.data.toList

def ofFile (bytes : List UInt8) : Except OptionsError Options :=
  match String.fromUTF8? ⟨bytes.toArray⟩ with
  | none => .error .io
  | some text => match Format.read? text with
    | none => .error .invalid
    | some o => .ok o

section Files

variable (files : FileSystem)

def saveTo (o : Options) (path : files.Path) (s : files.State) :
    Except OptionsError files.State :=
  match files.write s path o.fileBytes with
  | none => .error .io
  | some s' => .ok s'

def loadFrom (path : files.Path) (s : files.State) : Except OptionsError Options :=
  match files.read s path with
  | none => .error .io
  | some bytes => ofFile bytes

end Files

def save (o : Options) : Location → Except OptionsError Location := o.saveTo .single ()

def load : Location → Except OptionsError Options := loadFrom .single ()

end Options

end FunctorCalls
