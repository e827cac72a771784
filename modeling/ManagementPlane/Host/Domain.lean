import ManagementPlane.Host.Server

/-!
# Host/Domain — the model of the domain

    domain
    ├─ profile=*        {name}
    └─ server=serverA   answered by the server

The model holds an empty resource where the server answers.
-/

namespace ManagementPlane

namespace Domain

def profileName : String := "profile"

/-! ## Addresses -/

/-- Where the server answers. -/
def serverAddress : Address := [⟨"server", "serverA"⟩]

def profileAddress (name : String) : Address := [⟨profileName, name⟩]

def profilePattern : Address := profileAddress Element.anyValue

/-- An address of the server as the domain knows it. -/
def onServer (a : Address) : Address := serverAddress ++ a

/-! ## Definitions -/

def displayName : AttributeDefinition :=
  { name := Key.name, type := .string, description := "Display name of the profile",
    nillable := false, minLength := some 1 }

def setup : OperationEntry :=
  { definition := .of "setup" "Creates the initial domain resources" [] .undefined false
    handler := .seed [
      (profileAddress "profileA", .ofAttributes [(Key.name, .string "Profile A")]),
      (serverAddress, .empty)] }

/-- The model of the domain, without the global operations; the server is behind `delegate`. -/
def registration (delegate : Delegate) : Except RegistrationError Registration := do
  let r ← (Controller.rootRegistration "domain").addOperationAt Address.root setup
  let r ← r.addSubModelAt profilePattern "A named profile"
  let r ← r.addAttributeAt profilePattern { definition := displayName, access := .readWrite }
  let r ← Server.addAt profilePattern [displayName] r
  let r ← Server.removeAt profilePattern r
  r.addProxyAt serverAddress { node := serverAddress, delegate }

end Domain

end ManagementPlane
