import Cusco.JsonPrinting

/-!
The grammars of JSON schemas: `schema_grammar` compiles a schema to the text of a grammar in the
notation of GBNF, and its callers append the rules of the scalar types once.
-/

namespace Cusco.SchemaGrammars

open JsonValues JsonPrinting

inductive Error
  | invalid (message : String)
  | unsupported (path feature : String)

structure Compiler where
  rules : List (List Char)
  nextRule : ℕ

/-- The text of a schema's value and the compiler after it, or the error. Without a result the
recursion has reached its bound. -/
abbrev Compiled (α : Type) := Option (Except Error (α × Compiler))

def supportedKeywords : List String :=
  ["type", "properties", "required", "additionalProperties", "items", "enum", "const",
    "description", "title", "$schema"]

def replaceChar (c : Char) (replacement s : List Char) : List Char :=
  s.flatMap (fun d => if d = c then replacement else [d])

variable {floats : Floats} (printer : Printer floats)

def literal (value : Json) : List Char :=
  let json := printer.text value
  '"' :: replaceChar '"' ['\\', '"'] (replaceChar '\\' ['\\', '\\'] json) ++ ['"']

def ruleName (kind : List Char) (number : ℕ) : List Char :=
  kind ++ '-' :: Nat.toDigits 10 number

def Compiler.rule (c : Compiler) (kind body : List Char) : List Char × Compiler :=
  let name := ruleName kind c.nextRule
  (name, ⟨c.rules ++ [name ++ (" ::= ".toList ++ body)], c.nextRule + 1⟩)

def memberText (name : String) (value : List Char) : List Char :=
  literal printer (.string name) ++ (" space \":\" space (".toList ++ (value ++ ")".toList))

/-- The members of an object, compiled one after the other. -/
def Compiler.members (compile : Compiler → Json → String → Compiled (List Char)) (path : String)
    (c : Compiler) : List (String × Json) → Compiled (List (List Char))
  | [] => some (.ok ([], c))
  | (name, property) :: properties =>
    match compile c property s!"{path}.properties.{name}" with
    | none => none
    | some (.error e) => some (.error e)
    | some (.ok (value, c)) =>
      match c.members compile path properties with
      | none => none
      | some (.error e) => some (.error e)
      | some (.ok (members, c)) => some (.ok (memberText printer name value :: members, c))

def objectBody (members : List (List Char)) : List Char :=
  if members.isEmpty then "\"\x7b\" space \"\x7d\"".toList
  else
    "\"\x7b\" space ".toList ++ (" space \",\" space ".toList.intercalate members ++
      " space \"\x7d\"".toList)

def Compiler.object (compile : Compiler → Json → String → Compiled (List Char)) (c : Compiler)
    (object : Json) (path : String) : Compiled (List Char) :=
  match object.get "additionalProperties" with
  | some (.bool false) =>
    match object.get "properties" with
    | some (.object properties) =>
      match object.get "required" with
      | some (.array required) =>
        if required.length ≠ properties.length ∨ properties.any (fun property =>
            !required.any (fun name => name.asStr == some property.1)) then
          some (.error (.unsupported path "every object property must be required"))
        else
          match c.members printer compile path properties with
          | none => none
          | some (.error e) => some (.error e)
          | some (.ok (members, c)) => some (.ok (c.rule "object".toList (objectBody members)))
      | _ => some (.error (.unsupported path "every object property must be required"))
    | _ => some (.error (.invalid s!"{path}.properties must be an object"))
  | _ => some (.error (.unsupported path "objects must set additionalProperties to false"))

def arrayBody (item : List Char) : List Char :=
  "\"[\" space ((".toList ++ (item ++ (") (space \",\" space (".toList ++
    (item ++ "))*)? space \"]\"".toList)))

def Compiler.array (compile : Compiler → Json → String → Compiled (List Char)) (c : Compiler)
    (object : Json) (path : String) : Compiled (List Char) :=
  match object.get "items" with
  | none => some (.error (.invalid s!"{path}.items is required"))
  | some items =>
    match compile c items s!"{path}.items" with
    | none => none
    | some (.error e) => some (.error e)
    | some (.ok (item, c)) => some (.ok (c.rule "array".toList (arrayBody item)))

/-- `compile`, for schemas that are nested less deep than the bound. -/
def Compiler.compile : ℕ → Compiler → Json → String → Compiled (List Char)
  | 0, _, _, _ => none
  | bound + 1, c, schema, path =>
    match schema with
    | .object object =>
      if object.any (fun field => !supportedKeywords.contains field.1) then
        some (.error (.unsupported path "schema keyword"))
      else
        match schema.get "const" with
        | some value => some (.ok (literal printer value, c))
        | none =>
          match schema.get "enum" with
          | some (.array values) =>
            if values.isEmpty then some (.error (.invalid s!"{path}.enum must not be empty"))
            else some (.ok (" | ".toList.intercalate (values.map (literal printer)), c))
          | some _ => some (.error (.invalid s!"{path}.enum must be an array"))
          | none =>
            match (schema.get "type").bind Json.asStr with
            | none => some (.error (.unsupported path "schemas without an explicit scalar type"))
            | some kind =>
              if kind = "object" then c.object printer (Compiler.compile bound) schema path
              else if kind = "array" then c.array (Compiler.compile bound) schema path
              else if kind = "string" then some (.ok ("json-string".toList, c))
              else if kind = "integer" then some (.ok ("integer".toList, c))
              else if kind = "number" then some (.ok ("number".toList, c))
              else if kind = "boolean" then some (.ok ("boolean".toList, c))
              else if kind = "null" then some (.ok ("null".toList, c))
              else some (.error (.invalid s!"{path}.type has unknown value {kind}"))
    | _ => some (.error (.invalid s!"{path} must be a schema object"))

mutual

/-- How many values a JSON value is made of. -/
def size : Json → ℕ
  | .null => 1
  | .bool _ => 1
  | .number _ => 1
  | .string _ => 1
  | .array items => sizeItems items + 1
  | .object fields => sizeFields fields + 1

def sizeItems : List Json → ℕ
  | [] => 0
  | item :: items => size item + sizeItems items

def sizeFields : List (String × Json) → ℕ
  | [] => 0
  | (_, field) :: fields => size field + sizeFields fields

end

def spaceRule : List Char := "space ::= | \" \" | \"\\n\" [ \\t]{0,20}".toList

/-- `schema_grammar`. The error of the schema's own validation is a parameter. -/
def schemaGrammar (validate : Json → Option String) (schema : Json) :
    Option (Except Error (List Char)) :=
  match validate schema with
  | some error => some (.error (.invalid error))
  | none =>
    match Compiler.compile printer (size schema) ⟨[spaceRule], 0⟩ schema "$" with
    | none => none
    | some (.error e) => some (.error e)
    | some (.ok (value, c)) =>
      let rules := ("root ::= ".toList ++ (value ++ " space".toList)) :: c.rules
      some (.ok ("\n".toList.intercalate rules ++ "\n".toList))

def stringRule : List Char :=
  "json-string ::= \"\\\"\" ([^\"\\\\\\x7F\\x00-\\x1F] | \"\\\\\" ".toList ++
    ("([\"\\\\/bfnrt] | \"u\" [0-9a-fA-F] [0-9a-fA-F] [0-9a-fA-F] [0-9a-fA-F]))* ".toList ++
      "\"\\\"\"\n".toList)

def integerRule : List Char := "integer ::= \"-\"? ([0-9] | [1-9] [0-9]*)\n".toList

def numberRule : List Char :=
  "number ::= \"-\"? ([0-9] | [1-9] [0-9]*) ".toList ++
    "(\".\" [0-9]+)? ([eE] [+-]? [0-9]+)?\n".toList

def booleanRule : List Char := "boolean ::= \"true\" | \"false\"\n".toList

def nullRule : List Char := "null ::= \"null\"\n".toList

/-- The rules of the scalar types, which the callers append once. -/
def scalarRules : List Char :=
  stringRule ++ (integerRule ++ (numberRule ++ (booleanRule ++ nullRule)))

/-- `finish_schema_grammar`. -/
def finishSchemaGrammar (grammar : List Char) : List Char := grammar ++ scalarRules

end Cusco.SchemaGrammars
