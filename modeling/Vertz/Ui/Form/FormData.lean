import Vertz.Schema.Coerce

/-!
# `Vertz.Ui.Form.FormData`: form data as plain objects
-/

namespace Vertz.Ui.Form

open Vertz.Schema

structure FormDataOptions where
  coerce : Bool
  nested : Bool

section

variable {S : Type} (realm : Realm S)

/-- A string as a number or boolean, where it is one. -/
def coerceValue (value : String) : Decoded :=
  if value = "true" then .bool true
  else if value = "false" then .bool false
  else if value ≠ "" ∧ realm.toNumber value ≠ .nan then .num (realm.toNumber value)
  else .str value

def formDataToObject (formData : FormFields) (options : FormDataOptions) :
    Except (Fault S) Decoded :=
  formData.foldlM
    (decodeField realm (if options.coerce then coerceValue realm else .str) options.nested)
    (.object [])

end

end Vertz.Ui.Form
