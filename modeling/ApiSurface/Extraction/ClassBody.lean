import ApiSurface.Extraction.Types
/-!
Describing the members of a class. Private ones are left out; so are the bodies behind overloads.
Parameters of a constructor that are properties come before the other members.
-/
namespace ApiSurface

namespace ClassMember

/-- A member with a modifier. -/
def hasModifier (m : ClassMember) (word : Modifier) : Bool := m.modifiers.contains word

/-- A member that is seen only inside the class. -/
def isPrivate (m : ClassMember) : Bool :=
  m.hasModifier .privateAccess || m.name?.any PropertyName.isHidden

/-- Whether two members are both or neither members of the class itself. -/
def sameSide (m n : ClassMember) : Bool := m.hasModifier .static == n.hasModifier .static

/-- Whether two members have one name on one side of the class. -/
def sharesName (m n : ClassMember) : Bool :=
  m.sameSide n && (m.name?.map (·.text)) == (n.name?.map (·.text))

/-- A method. -/
def isMethod (m : ClassMember) : Bool :=
  match m.shape with
  | .method .. => true
  | _ => false

/-- A constructor. -/
def isConstructor (m : ClassMember) : Bool :=
  match m.shape with
  | .constructor .. => true
  | _ => false

/-- A member that reads a property. -/
def isGetter (m : ClassMember) : Bool :=
  match m.shape with
  | .getter .. => true
  | _ => false

/-- A member that writes a property. -/
def isSetter (m : ClassMember) : Bool :=
  match m.shape with
  | .setter .. => true
  | _ => false

end ClassMember

namespace Param

/-- A parameter of a constructor that is a property of the class. -/
def isProperty (p : Param) : Bool := p.modifiers.meets Modifiers.parameterProperty

/-- A parameter with a modifier. -/
def hasModifier (p : Param) (word : Modifier) : Bool := p.modifiers.contains word

end Param

/-- What is known of a class after some of its members. -/
structure ClassParts where
  constructors : List DocSignature
  /-- Parameters of constructors that are properties. -/
  parameters : Table String DocClassMember
  members : List DocClassMember
  hasPrivate : Bool
  deriving Inhabited

namespace ClassParts

/-- Nothing known. -/
def start : ClassParts := ⟨[], [], [], false⟩

/-- The members in the order in which they are shown. -/
def allMembers (c : ClassParts) : List DocClassMember := c.parameters.map (·.2) ++ c.members

end ClassParts

namespace Describe

variable (type : TypeExpr → Describe DocType) (inferred : InferredType → Describe DocType)

/-- A parameter of a constructor, as a property of the class if it is one. -/
def parameterProperty (c : ClassParts) (p : Param) : Describe ClassParts := do
  if !p.isProperty then return c
  if p.hasModifier .privateAccess then return { c with hasPrivate := true }
  if c.parameters.has p.name.text then return c
  let t ← inferred p.infer
  let property : DocClassMember :=
    { member := .property p.name.text none p.optional (p.hasModifier .readonly)
        (t.ofProperty p.optional)
      isStatic := false, isProtected := p.hasModifier .protectedAccess, isAbstract := false }
  return { c with parameters := c.parameters.insert p.name.text property }

/-- A member among all members of a class, if it is shown among the members. -/
def classMember (all : List ClassMember) (m : ClassMember) : Describe (Option DocMember) := do
  let docs := m.doc
  let readonly := m.hasModifier .readonly
  match m.shape with
  | .property name optional t initial =>
    let t ← match t with
      | some t => type t
      | none => inferred (inferProperty initial readonly)
    return some (.property name.text docs optional readonly (t.ofProperty optional))
  | .method name optional s body =>
    let overloaded := 1 < all.countP fun n => n.isMethod && n.sharesName m
    if overloaded && body.isSome then return none
    let returned := s.inferReturn body (m.hasModifier .async)
    return some (.method name.text docs optional
      (← signature type inferred s docs false returned))
  | .getter name t _ =>
    let readonly := !all.any fun n => n.isSetter && n.sharesName m
    return some (.property name.text docs false readonly (← typeOrAny type t))
  | .setter name p =>
    if all.any fun n => n.isGetter && n.sharesName m then return none
    return some (.property name.text docs false false (← typeOrAny type (p.bind (·.type))))
  | .index params t =>
    let (keyName, keyType) ← indexKey type params
    return some (.index docs keyName keyType readonly (← typeOrAny type t))
  | .constructor .. | .unknown => return none

/-- What is known of a class after one more of all its members. -/
def classPart (all : List ClassMember) (c : ClassParts) (m : ClassMember) :
    Describe ClassParts := do
  if m.isPrivate then return { c with hasPrivate := true }
  match m.shape with
  | .constructor s body =>
    let c ← s.params.foldlM (parameterProperty inferred) c
    if 1 < all.countP ClassMember.isConstructor && body.isSome then return c
    let s ← signature type inferred s m.doc true none
    return { c with constructors := c.constructors ++ [s] }
  | _ =>
    match ← classMember type inferred all m with
    | none => return c
    | some member =>
      let member : DocClassMember :=
        { member, isStatic := m.hasModifier .static, isProtected := m.hasModifier .protectedAccess
          isAbstract := m.hasModifier .abstracted }
      return { c with members := c.members ++ [member] }

/-- The members of a class. -/
def classParts (all : List ClassMember) : Describe ClassParts :=
  all.foldlM (classPart type inferred all) .start

end Describe

end ApiSurface
