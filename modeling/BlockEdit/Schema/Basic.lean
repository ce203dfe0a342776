import BlockEdit.Text.Named
import BlockEdit.Value

/-!
# What a catalog says about a block

A block schema lists the parameters that a block may have and its subtypes, each with parameters of
its own. A parameter schema gives the type of a parameter and the text of its default.
-/

namespace BlockEdit

/-- What a catalog says about one parameter. -/
structure ParameterSchema where
  /-- The name of the parameter. -/
  name : Text
  /-- The name of its type, such as `Integer` or `Array:Real`. -/
  basicType : Text := "String".toList
  /-- The type that the application uses for it; some of them ask for quotes. -/
  cppType : Text := []
  /-- Whether a block is incomplete without it. -/
  required : Bool := false
  /-- The text of the default. -/
  default : Option Text := none
  /-- The values to choose from. -/
  options : List Text := []
  /-- What the parameter is for. -/
  description : Text := []
  /-- The group in which an editor shows it. -/
  group : Text := "Main".toList
deriving DecidableEq

/-- What a catalog says about one subtype of a block. -/
structure SubtypeSchema where
  /-- What the subtype is for. -/
  description : Text := []
  /-- The parameters that a block of the subtype has besides its own. -/
  parameters : List ParameterSchema := []
deriving DecidableEq

/-- What a catalog says about one block. -/
structure BlockSchema where
  /-- What the block is for. -/
  description : Text := []
  /-- The parameters of the block, whatever its subtype. -/
  parameters : List ParameterSchema := []
  /-- The subtypes by name. -/
  subtypes : List (Text × SubtypeSchema) := []
deriving DecidableEq

namespace ParameterSchema

instance : Named ParameterSchema := ⟨ParameterSchema.name⟩

/-- The type of the parameter. -/
def valueType (p : ParameterSchema) : ValueType := ValueType.ofName p.basicType

/-- The value of a parameter that nobody has set. An empty default means no value, except that a
truth value is then false; a default that does not read as the type means no value. -/
def defaultValue (p : ParameterSchema) : Option Value :=
  let text := Text.trim (p.default.getD [])
  if text = [] then
    if p.valueType = .scalar .bool then some (.scalar (.bool false)) else none
  else (p.valueType.read text).toOption

end ParameterSchema

namespace BlockSchema

/-- The parameter of this name. -/
def parameter? (s : BlockSchema) (name : Text) : Option ParameterSchema :=
  Named.find? name s.parameters

/-- The subtype of this name. -/
def subtype? (s : BlockSchema) (name : Text) : Option SubtypeSchema :=
  (Named.find? name s.subtypes).map Prod.snd

/-- The names of the subtypes, in order. -/
def subtypeNames (s : BlockSchema) : List Text := s.subtypes.map Prod.fst

end BlockSchema

end BlockEdit
