import OutOfLine.Settings

namespace OutOfLine.Settings

inductive FieldType where
  | text
  | choice (values : List String)
  | texts

structure Field where
  key : String
  description : String
  type : FieldType
  default : Value

namespace Field

def typeEntries : FieldType → List (String × Value)
  | .text => [("type", .string "string")]
  | .choice values =>
      [("type", .string "string"), ("enum", .array (values.map .string))]
  | .texts =>
      [("type", .string "array"), ("items", .object [("type", .string "string")])]

def toSchema (field : Field) : Value :=
  .object (("markdownDescription", .string field.description) ::
    ("default", field.default) :: typeEntries field.type)

def fullKey (field : Field) : String :=
  sectionKey ++ "." ++ field.key

def toMarkdown (field : Field) : String :=
  "- `" ++ field.fullKey ++ "` - " ++ field.description

/-- The part of a key before its first dot names a group. -/
def group (field : Field) : String :=
  match field.key.toList.span (· ≠ '.') with
  | (_, []) => "definitions"
  | (name, _) => String.ofList name

end Field

namespace Schema

def fields : List Field :=
  [{ key := "textAfterDef"
     description := "Text appended after every generated definition, typically an empty body."
     type := .text
     default := .string (String.ofList Style.default.afterDefinition) },
   { key := "textBetweenMultipleDefs"
     description :=
       "Text inserted between definitions when several declarations are selected."
     type := .text
     default := .string (String.ofList Style.default.betweenDefinitions) },
   { key := "textAfterMultipleDefs"
     description := "Text appended once after the last of several definitions."
     type := .text
     default := .string (String.ofList Style.default.afterDefinitions) },
   { key := "discardedSegments"
     description :=
       "Declaration words that are dropped from definitions, such as `virtual` or `override`. " ++
       "Entries match whole words exactly."
     type := .texts
     default := .array (Style.defaultDiscarded.map .string) },
   { key := "logging.level"
     description := "Logging verbosity for cpp-definer."
     type := .choice (Level.all.map Level.name)
     default := .string Level.default.name }]

def properties : Value :=
  .object (fields.map fun field => (field.fullKey, field.toSchema))

def groupTitle (group : String) : String :=
  if group = "definitions" then "Definitions"
  else if group = "logging" then "Logging"
  else group

/-- A list entry per field, with a heading wherever the group changes. -/
def markdownOf (current : String) : List Field → String
  | [] => ""
  | field :: others =>
      let heading :=
        if field.group = current then "" else "\n## " ++ groupTitle field.group ++ "\n\n"
      heading ++ field.toMarkdown ++ "\n" ++ markdownOf field.group others

def markdown : String :=
  markdownOf "" fields

end Schema

end OutOfLine.Settings
