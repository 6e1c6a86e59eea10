import OmniRoute.Lib.CodeUnits
import OmniRoute.Lib.Json
import OmniRoute.Lib.OrdMap
import OmniRoute.Lib.Qualified

/-!
# Namespace tools

A Responses client declares tools at the top level and in `additional_tools` items, plain ones and
namespaces of them. `collectResponsesTools` merges the declarations, the conversion to Chat flattens
every namespace and notes which wire name stands for which member, and `resolveRequestToolIdentity`
reads that note when a call comes back.

The tools are function tools in either format and namespaces; hosted tools, which no namespace holds,
are left out. The hash of a name is a parameter.
-/

namespace OmniRoute.NamespaceTools

open Qualified CodeUnits

variable {N : Type}

/-! ## Declarations -/

/-- A member of a namespace; `functionName` is the name in a nested `function`. -/
structure Member (N : Type) where
  name : CodeUnits
  functionName : CodeUnits := []
  isCustom : Bool := false
  description : String := ""
  parameters : Option (Json N) := none
  inputSchema : Option (Json N) := none
  strict : Option (Json N) := none

inductive ResponsesTool (N : Type)
  | namespaceTool (name : CodeUnits) (tools : Option (List (Member N)))
  /-- A function or custom tool in the Responses format. -/
  | function (tool : Member N)
  /-- A tool that is in the Chat format already. -/
  | chat (name functionName : CodeUnits) (value : Json N)

/-- `tool.name` if it is not blank, else the nested name, trimmed. -/
def trimmedName (name functionName : CodeUnits) : CodeUnits :=
  if trim name ≠ [] then trim name else trim functionName

def Member.toolName (tool : Member N) : CodeUnits := trimmedName tool.name tool.functionName

def ResponsesTool.toolName : ResponsesTool N → CodeUnits
  | .namespaceTool name _ => trim name
  | .function tool => tool.toolName
  | .chat name functionName _ => trimmedName name functionName

def ResponsesTool.isNamespace : ResponsesTool N → Bool
  | .namespaceTool .. => true
  | _ => false

/-! ## Merging -/

/-- The members of which no one before has the name. -/
def keepFirst : List CodeUnits → List (Member N) → List (Member N)
  | _, [] => []
  | seenNames, tool :: tools =>
    let name := tool.toolName
    if name ≠ [] ∧ name ∈ seenNames then keepFirst seenNames tools
    else tool :: keepFirst (if name ≠ [] then name :: seenNames else seenNames) tools

def mergeNamespaceTools (first second : Option (List (Member N))) : List (Member N) :=
  keepFirst [] (first.getD [] ++ second.getD [])

/-- The names of the tools outside of namespaces. -/
def explicitNames (tools : List (ResponsesTool N)) : List CodeUnits :=
  (tools.map fun tool => if tool.isNamespace then [] else tool.toolName).filter fun name =>
    decide (name ≠ [])

/-- The namespace in the list that has this name is extended; its own fields stay. -/
def extendNamespace (namespaceName : CodeUnits) (members : Option (List (Member N))) :
    List (ResponsesTool N) → List (ResponsesTool N)
  | [] => []
  | .namespaceTool name tools :: rest =>
    if trim name = namespaceName then
      .namespaceTool name (some (mergeNamespaceTools tools members)) :: rest
    else .namespaceTool name tools :: extendNamespace namespaceName members rest
  | tool :: rest => tool :: extendNamespace namespaceName members rest

/-- `namespaceIndexes.has(name)` -/
def hasNamespace (namespaceName : CodeUnits) (merged : List (ResponsesTool N)) : Bool :=
  merged.any fun tool => tool.isNamespace && decide (tool.toolName = namespaceName)

/-- The loop over all declarations; `merged` is what there is so far. -/
def mergeTools (explicit : List CodeUnits) :
    List (ResponsesTool N) → List (ResponsesTool N) → List (ResponsesTool N)
  | [], merged => merged
  | .namespaceTool name tools :: rest, merged =>
    let namespaceName := trim name
    let namespaceTools := tools.map fun members =>
      members.filter fun member => decide (member.toolName ∉ explicit)
    if namespaceName ≠ [] && hasNamespace namespaceName merged then
      mergeTools explicit rest (extendNamespace namespaceName namespaceTools merged)
    else mergeTools explicit rest (merged ++ [.namespaceTool name namespaceTools])
  | tool :: rest, merged =>
    if tool.toolName ≠ [] ∧
        tool.toolName ∈ (merged.filter fun t => !t.isNamespace).map ResponsesTool.toolName then
      mergeTools explicit rest merged
    else mergeTools explicit rest (merged ++ [tool])

/-- The root tools and those of the `additional_tools` items, in order. -/
def collectResponsesTools (rootTools : List (ResponsesTool N))
    (additional : List (List (ResponsesTool N))) : List (ResponsesTool N) :=
  let sources := rootTools ++ additional.flatten
  mergeTools (explicitNames sources) sources []

/-! ## Flattening -/

/-- The first seven digits of the hash of a name. -/
abbrev NameHash := CodeUnits → CodeUnits

def maxToolNameLen : ℕ := 64

/-- A name over the limit keeps its beginning, with a hash of the whole. -/
def shorten (hash : NameHash) (qualified : CodeUnits) : CodeUnits :=
  if qualified.length ≤ maxToolNameLen then qualified
  else qualified.take (maxToolNameLen - 8) ++ [95] ++ hash qualified

/-- `leaf.includes("__")` -/
def isQualified (leaf : CodeUnits) : Bool := leaf.tails.any fun t => [95, 95].isPrefixOf t

def flattenNamespaceToolName (hash : NameHash) (nsName leaf : CodeUnits) : CodeUnits :=
  if nsName = [] then leaf
  else if isQualified leaf then leaf
  else shorten hash (containerPrefix 95 nsName ++ leaf)

/-- `{ namespace, name }` -/
structure Identity where
  nsName : CodeUnits
  name : CodeUnits
  deriving DecidableEq

structure ChatFunction (N : Type) where
  name : CodeUnits
  description : String
  parameters : Option (Json N)
  strict : Option (Json N)

inductive ChatTool (N : Type)
  | function (fn : ChatFunction N)
  | asGiven (functionName : CodeUnits) (value : Json N)

/-- `{ input: string }`, the parameters of every custom tool. -/
def customParameters : Json N :=
  .obj [("type", .str "object"),
    ("properties", .obj [("input", .obj [("type", .str "string")])]),
    ("required", .arr [.str "input"]), ("additionalProperties", .bool false)]

def emptyParameters : Json N := .obj [("type", .str "object"), ("properties", .obj [])]

/-- A member under its wire name. -/
def flattenMember (hash : NameHash) (nsName : CodeUnits) (sub : Member N) : ChatTool N :=
  .function
    { name := flattenNamespaceToolName hash nsName sub.name
      description := sub.description
      parameters := some (if sub.isCustom then customParameters
        else (sub.parameters.or sub.inputSchema).getD emptyParameters)
      strict := sub.strict }

/-- The members that have a name. -/
def namedMembers (tools : Option (List (Member N))) : List (Member N) :=
  (tools.getD []).filter fun sub => decide (sub.name ≠ [])

def convertTool (hash : NameHash) : ResponsesTool N → List (ChatTool N)
  | .namespaceTool nsName tools => (namedMembers tools).map (flattenMember hash nsName)
  | .function tool =>
    if trim tool.name = [] then []
    else
      [.function
        { name := tool.name
          description := tool.description
          parameters := if tool.isCustom then some customParameters else tool.parameters
          strict := tool.strict }]
  | .chat _ functionName value => [.asGiven functionName value]

def ChatTool.wireName : ChatTool N → CodeUnits
  | .function fn => fn.name
  | .asGiven functionName _ => functionName

def convertTools (hash : NameHash) (tools : List (ResponsesTool N)) : List (ChatTool N) :=
  tools.flatMap (convertTool hash)

/-- What one member adds to `namespaceToolIdentityMap`. -/
def noteIdentity (hash : NameHash) (nsName : CodeUnits) (identityMap : OrdMap CodeUnits Identity)
    (sub : Member N) : OrdMap CodeUnits Identity :=
  if nsName ≠ [] ∧ sub.name ≠ [] then
    identityMap.set (flattenNamespaceToolName hash nsName sub.name) ⟨nsName, sub.name⟩
  else identityMap

def noteTool (hash : NameHash) (identityMap : OrdMap CodeUnits Identity) :
    ResponsesTool N → OrdMap CodeUnits Identity
  | .namespaceTool nsName tools => (namedMembers tools).foldl (noteIdentity hash nsName) identityMap
  | _ => identityMap

def namespaceToolIdentityMap (hash : NameHash) (tools : List (ResponsesTool N)) :
    OrdMap CodeUnits Identity :=
  tools.foldl (noteTool hash) OrdMap.empty

/-! ## Resolving -/

/-- An identity without a namespace or a name is none. -/
def asRequestToolIdentity (identity : Identity) : Option Identity :=
  if identity.nsName ≠ [] ∧ identity.name ≠ [] then some identity else none

/-- `namespace.name` -/
def Identity.dotted (identity : Identity) : CodeUnits := identity.nsName ++ [46] ++ identity.name

def resolveRequestToolIdentity (identityMap : OrdMap CodeUnits Identity) (toolName : CodeUnits) :
    Option Identity :=
  if toolName = [] then none
  else
    match (identityMap.get toolName).bind asRequestToolIdentity with
    | some identity => some identity
    | none =>
      (identityMap.values.filterMap asRequestToolIdentity).find? fun identity =>
        decide (identity.dotted = toolName)

end OmniRoute.NamespaceTools
