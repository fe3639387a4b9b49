import JavaSlice.Syntax.Grammar.Name

/-!
# Types, annotations and modifiers

The grammar of types. A named type is a chain of segments, each of which may have type arguments,
and square brackets after a type make an array of it. Annotations may stand before a type, between
the segments of its name and before the brackets.
-/

namespace JavaSlice.Syntax.Grammar

open Syntax.Parser

variable (rules : Rules)

/-! ## Annotations -/

/-- Annotations, if there are any. -/
def annotations : Phrases :=
  many (rules .annotationRule)

/-- The value of an element: an expression, a list of values or another annotation. -/
def elementValue (array : Phrases) : Phrases := do
  let token ← peek
  if token.isSymbol "\x7b" then array
  else if token.isSymbol "@" then rules .annotationRule
  else rules (.expression true 0)

/-- A list of values between braces; lists inside it are read at most once for each token of
`bound`. -/
def elementArray (bound : List Token) : Phrases :=
  match bound with
  | [] => failure
  | _ :: bound => node .elementValueArray do
    symbol "\x7b"
    let values ← commas (elementValue rules (elementArray bound))
    let _ ← trySymbol ","
    symbol "\x7d"
    pure values

/-- A value of an element, lists included. -/
def elementValueOrArray : Phrases := fun cursor =>
  elementValue rules (elementArray rules cursor.tokens) cursor

/-- A named element of an annotation. -/
def elementPair : Phrases := node .elementValuePair do
  let key ← identifier
  symbol "="
  let value ← inRole .value (elementValueOrArray rules)
  pure (key ++ value)

/-- The arguments of an annotation: named elements, or one value without a name. -/
def annotationArguments : Phrases := node .annotationArguments do
  symbol "("
  let arguments ← (do
      let pairs ← commas (elementPair rules)
      symbol ")"
      pure pairs) <|> (do
      let value ← elementValueOrArray rules
      symbol ")"
      pure value)
  pure arguments

/-- An annotation, with arguments if a parenthesis follows. -/
def annotationRule : Phrases := do
  let start ← place
  symbol "@"
  let name ← inRole .name qualifiedName
  if ← atSymbol "(" then
    let arguments ← inRole .arguments (annotationArguments rules)
    pure [← nodeFrom .annotationCall start (name ++ arguments)]
  else pure [← nodeFrom .annotationMark start name]

/-! ## Types -/

/-- The words for primitive types. -/
def primitiveTypes : List String :=
  ["byte", "short", "int", "long", "char", "float", "double", "boolean"]

/-- A primitive type or `void`. -/
def primitive : Phrases :=
  leaf .primitiveType (fun token => token.kind == .word && primitiveTypes.contains token.text) <|>
    leaf .voidType (·.isWord "void")

/-- A segment of the name of a type. -/
def typeIdentifier : Phrases :=
  leaf .typeIdentifier isName

/-- An argument that stands for any type within a bound. -/
def wildcard : Phrases := node .wildcard do
  let marks ← annotations rules
  symbol "?"
  let bound ← maybe <| (do word "extends"; rules .type) <|> (do
    let mark ← leaf .superWord (·.isWord "super")
    let type ← rules .type
    pure (mark ++ type))
  pure (marks ++ bound)

/-- Type arguments between angle brackets. -/
def typeArguments : Phrases := node .typeArguments do
  symbol "<"
  let arguments ← commas (wildcard rules <|> rules .type)
  symbol ">"
  pure arguments

/-- Makes a named type longer, by type arguments or by another segment. -/
def growNamed (start : Nat) (type : Tree) : Parser Tree := do
  if ← atSymbol "<" then
    guardThat (type.kind != .genericType)
    let arguments ← typeArguments rules
    nodeFrom .genericType start (type :: arguments)
  else
    symbol "."
    let marks ← annotations rules
    let segment ← typeIdentifier
    nodeFrom .scopedTypeIdentifier start (type :: marks ++ segment)

/-- A type given by its name. -/
def namedType : Phrases := do
  let start ← place
  let first ← typeIdentifier
  match first with
  | [tree] => pure [← grow (growNamed rules start) tree]
  | _ => failure

/-- A type without brackets after it. -/
def simpleType : Phrases :=
  primitive <|> namedType rules

/-- Square brackets with nothing inside. -/
def emptyBrackets : Phrases := do
  let marks ← annotations rules
  symbol "["
  symbol "]"
  pure marks

/-- The brackets of an array type. -/
def dimensions : Phrases :=
  node .dimensions (many1 (emptyBrackets rules))

/-- A type without annotations in front. -/
def plainType : Phrases := do
  let start ← place
  let element ← simpleType rules
  (do
    let brackets ← dimensions rules
    pure [← nodeFrom .arrayType start (element.map (Tree.withRole .element) ++ brackets)]) <|>
    pure element

/-- A type, with annotations in front of it or not. -/
def anyType : Phrases := do
  if ← atSymbol "@" then
    node .annotatedType do
      let marks ← many1 (rules .annotationRule)
      let type ← plainType rules
      pure (marks ++ type)
  else plainType rules

/-! ## Type parameters -/

/-- The bounds of a type parameter. -/
def typeBound : Phrases := node .typeBound do
  word "extends"
  sepBy1 "&" (rules .type)

/-- A type parameter with its bounds. -/
def typeParameter : Phrases := node .typeParameter do
  let marks ← annotations rules
  let name ← typeIdentifier
  let bound ← maybe (typeBound rules)
  pure (marks ++ name ++ bound)

/-- Type parameters between angle brackets. -/
def typeParameters : Phrases := node .typeParameters do
  symbol "<"
  let parameters ← sepBy1 "," (typeParameter rules)
  symbol ">"
  pure parameters

/-! ## Modifiers -/

/-- The words that are modifiers wherever a modifier can stand. -/
def modifierWords : List String :=
  ["public", "protected", "private", "abstract", "static", "final", "strictfp", "native",
    "transient", "volatile"]

/-- Whether a token can follow the word `sealed` where that is a modifier. -/
def followsSealed (token : Token) : Bool :=
  token.isSymbol "@" || token.kind == .word &&
    (modifierWords ++ ["class", "interface", "sealed", "non"]).contains token.text

/-- A modifier that is no annotation. -/
def modifierWord : Phrases := do
  let first ← next
  if first.kind != .word then failure
  else if modifierWords.contains first.text then pure []
  else if first.text == "default" then
    let follower ← peek
    guardThat (!follower.isSymbol ":" && !follower.isSymbol "->")
    pure []
  else if first.text == "synchronized" then
    guardThat (!(← atSymbol "("))
    pure []
  else if first.text == "sealed" then
    guardThat (followsSealed (← peek))
    pure []
  else if first.text == "non" then
    symbol "-"
    word "sealed"
    pure []
  else failure

/-- The modifiers of a declaration; their parts are the annotations among them. -/
def modifiers : Phrases :=
  maybe (node .modifiers (many1 (rules .annotationRule <|> modifierWord)))

end JavaSlice.Syntax.Grammar
