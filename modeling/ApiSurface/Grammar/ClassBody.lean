import ApiSurface.Grammar.Types
/-!
Members of classes.
-/
namespace ApiSurface.Productions

open Parse

/-- The words before a member of a class. -/
def memberWords : List (String × Modifier) :=
  [("public", .publicAccess), ("private", .privateAccess), ("protected", .protectedAccess),
    ("static", .static), ("readonly", .readonly), ("abstract", .abstracted),
    ("override", .overriding), ("declare", .declared), ("accessor", .accessor), ("async", .async)]

/-- A getter or a setter of a class, from its word on. -/
def classAccessor (g : Productions) : Parse ClassMemberShape := do
  let isGetter ← isAtWord "get"
  advance
  let name ← propertyName
  let signature ← g.signature
  let body ← optionalBody
  return if isGetter then .getter name signature.returns body
    else .setter name signature.params.head?

/-- A property or a method of a class. -/
def namedMember (g : Productions) : Parse ClassMemberShape := do
  let _ ← accept .asterisk
  let name ← propertyName
  let optional ← accept .question
  let _ ← accept .exclamation
  if ← isAtAny [.openParen, .less] then
    let signature ← g.signature
    let body ← optionalBody
    return .method name optional signature body
  let type ← g.typeAfter .colon
  let initial ← g.initializer
  semicolon
  return .property name optional type initial

/-- What a member of a class declares, after its modifiers. -/
def classMemberShape (g : Productions) : Parse ClassMemberShape := do
  if (← isAtWord "static") && (← nextIs .openBrace) then
    advance
    skipBalanced
    return .unknown
  if (← isAt .openBracket) && (← isAtIndexSignature) then
    let (params, type) ← g.indexSignature
    return .index params type
  if (← isAtWord "constructor") && [.openParen, .less].contains (← peek).kind then
    advance
    let signature ← g.signature
    let body ← optionalBody
    return .constructor signature body
  if (← isAtMemberModifier "get") || (← isAtMemberModifier "set") then g.classAccessor
  else g.namedMember

/-- A member of a class. -/
def classMember (g : Productions) : Parse ClassMember := do
  let doc ← leadingDocHere
  let start ← position
  g.decorators
  let modifiers ← modifiersOf memberWords goesOnMember
  let shape ← g.classMemberShape
  let _ ← accept .semicolon
  return ⟨← spanFrom start, doc, modifiers, shape⟩

/-- The members of a class in braces. A token that starts no member is passed. -/
def classMembers (g : Productions) : Parse (List ClassMember) := do
  if ← expect .openBrace then
    let members ← collect do
      if ← isAtAny [.closeBrace, .endOfFile] then return ([], false)
      if ← accept .semicolon then return ([], true)
      let member ← orAdvance g.classMember
      return ([member], true)
    let _ ← expect .closeBrace
    return members
  else return []

end ApiSurface.Productions
