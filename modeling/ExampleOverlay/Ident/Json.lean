import ExampleOverlay.Ident
import ExampleOverlay.Json

/-!
# Ids in JSON

An id is written as its text and read from any spelling of it.
-/

namespace ExampleOverlay.Ident

variable {role : Role}

def toJson (id : Ident role) : Json := .text id.toText

def ofJson? (j : Json) : Option (Ident role) := j.text?.bind fun s => (parse s).toOption

end ExampleOverlay.Ident
