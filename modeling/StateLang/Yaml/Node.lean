import StateLang.Yaml.Scan

/-!
# YAML nodes

A document is a tree of scalars, sequences and mappings. An alias stands for a
node that an anchor named before; inside that node itself it has no value yet.
Tags must be known but are not kept.
-/

namespace StateLang.Yaml

inductive Node
  | scalar (text : String)
  | sequence (items : List Node)
  | mapping (pairs : List (Node × Node))
  | reference (target? : Option Node)

/-- The node of a place where nothing is written. -/
def Node.empty : Node := scalar ""

/-- The text of a scalar, also of one that is named by an alias. -/
def Node.text? : Node → Option String
  | scalar text => some text
  | reference (some node) => node.text?
  | _ => none

/-- The tokens ahead, and what anchors and tag handles mean so far. -/
structure Builder where
  tokens : List Token
  anchors : List (String × Option Node)
  handles : List String

abbrev BuildM := StateT Builder Option

namespace Builder

def peek? : BuildM (Option Token) := fun b => some (b.tokens.head?, b)

def skip : BuildM Unit := fun b => some ((), { b with tokens := b.tokens.drop 1 })

def define (name? : Option String) (node? : Option Node) : BuildM Unit := fun b =>
  match name? with
  | none => some ((), b)
  | some name => some ((), { b with anchors := (name, node?) :: b.anchors })

def resolve (name : String) : BuildM Node := fun b => do
  let target? ← b.anchors.lookup name
  pure (.reference target?, b)

/-- Fail on a tag whose handle has no meaning. -/
def checkHandle (handle : String) : BuildM Unit := fun b =>
  if handle.isEmpty || b.handles.contains handle then some ((), b) else none

/-- The marks before a node: the anchor's name if there is one, and whether there is a mark. -/
def properties : BuildM (Option String × Bool) := do
  match ← peek? with
  | some (.anchor name) =>
      skip
      match ← peek? with
      | some (.tag handle) =>
          skip
          checkHandle handle
          pure (some name, true)
      | _ => pure (some name, true)
  | some (.tag handle) =>
      skip
      match ← peek? with
      | some (.anchor name) =>
          skip
          checkHandle handle
          pure (some name, true)
      | _ =>
          checkHandle handle
          pure (none, true)
  | _ => pure (none, false)

/-- A node, or an empty one if one of the tokens `ends` comes next. -/
def orEmpty (ends : List Token) (node : BuildM Node) : BuildM Node := do
  match ← peek? with
  | some token => if ends.contains token then pure .empty else node
  | none => node

mutual

/-- A node. Block collections may start one in block context, and sequence entries without
indentation one in the value of a block mapping. -/
def node (block entries : Bool) : Nat → BuildM Node
  | 0 => failure
  | fuel + 1 => do
      match ← peek? with
      | some (.reference name) =>
          skip
          resolve name
      | _ =>
          let (name?, marked) ← properties
          let collect (content : BuildM Node) : BuildM Node := do
            define name? none
            let result ← content
            define name? (some result)
            pure result
          match ← peek? with
          | some (.scalar text) =>
              skip
              define name? (some (.scalar text))
              pure (.scalar text)
          | some .blockEntry =>
              if entries then
                collect do
                  let items ← looseEntries fuel
                  pure (.sequence items)
              else emptyIf marked name?
          | some .flowSequenceStart =>
              skip
              collect do
                let items ← flowItems true fuel
                pure (.sequence items)
          | some .flowMappingStart =>
              skip
              collect do
                let pairs ← flowPairs true fuel
                pure (.mapping pairs)
          | some .blockSequenceStart =>
              if block then
                skip
                collect do
                  let items ← blockEntries fuel
                  pure (.sequence items)
              else emptyIf marked name?
          | some .blockMappingStart =>
              if block then
                skip
                collect do
                  let pairs ← blockPairs fuel
                  pure (.mapping pairs)
              else emptyIf marked name?
          | _ => emptyIf marked name?

/-- A mark without content names an empty node. -/
def emptyIf (marked : Bool) (name? : Option String) : BuildM Node := do
  if marked then
    define name? (some .empty)
    pure .empty
  else failure

/-- The entries of a block sequence, through its end. -/
def blockEntries : Nat → BuildM (List Node)
  | 0 => failure
  | fuel + 1 => do
      match ← peek? with
      | some .blockEntry =>
          skip
          let first ← orEmpty [.blockEntry, .blockEnd] (node true false fuel)
          let rest ← blockEntries fuel
          pure (first :: rest)
      | some .blockEnd =>
          skip
          pure []
      | _ => failure

/-- The entries of a sequence that is not indented; any other token ends it. -/
def looseEntries : Nat → BuildM (List Node)
  | 0 => failure
  | fuel + 1 => do
      match ← peek? with
      | some .blockEntry =>
          skip
          let first ← orEmpty [.blockEntry, .key, .value, .blockEnd] (node true false fuel)
          let rest ← looseEntries fuel
          pure (first :: rest)
      | _ => pure []

/-- The pairs of a block mapping, through its end. -/
def blockPairs : Nat → BuildM (List (Node × Node))
  | 0 => failure
  | fuel + 1 => do
      match ← peek? with
      | some .key =>
          skip
          let first ← orEmpty [.key, .value, .blockEnd] (node true true fuel)
          let second ← blockValue fuel
          let rest ← blockPairs fuel
          pure ((first, second) :: rest)
      | some .blockEnd =>
          skip
          pure []
      | _ => failure

def blockValue : Nat → BuildM Node
  | 0 => failure
  | fuel + 1 => do
      match ← peek? with
      | some .value =>
          skip
          orEmpty [.key, .value, .blockEnd] (node true true fuel)
      | _ => pure .empty

/-- The items of a flow sequence, through its end. -/
def flowItems (first : Bool) : Nat → BuildM (List Node)
  | 0 => failure
  | fuel + 1 => do
      match ← peek? with
      | some .flowSequenceEnd =>
          skip
          pure []
      | _ =>
          separator first
          match ← peek? with
          | some .flowSequenceEnd =>
              skip
              pure []
          | some .key =>
              skip
              let pair ← flowPair fuel
              let rest ← flowItems false fuel
              pure (.mapping [pair] :: rest)
          | _ =>
              let item ← node false false fuel
              let rest ← flowItems false fuel
              pure (item :: rest)

/-- A comma before every item but the first. -/
def separator (first : Bool) : BuildM Unit := do
  if first then pure ()
  else
    match ← peek? with
    | some .flowEntry => skip
    | _ => failure

/-- The one pair of a mapping without braces. Its empty key takes the token after it. -/
def flowPair : Nat → BuildM (Node × Node)
  | 0 => failure
  | fuel + 1 => do
      let key ← do
        match ← peek? with
        | some .value =>
            skip
            pure .empty
        | some .flowEntry =>
            skip
            pure .empty
        | some .flowSequenceEnd =>
            skip
            pure .empty
        | _ => node false false fuel
      match ← peek? with
      | some .value =>
          skip
          let value ← orEmpty [.flowEntry, .flowSequenceEnd] (node false false fuel)
          pure (key, value)
      | _ => pure (key, .empty)

/-- The pairs of a flow mapping, through its end. -/
def flowPairs (first : Bool) : Nat → BuildM (List (Node × Node))
  | 0 => failure
  | fuel + 1 => do
      match ← peek? with
      | some .flowMappingEnd =>
          skip
          pure []
      | _ =>
          separator first
          match ← peek? with
          | some .flowMappingEnd =>
              skip
              pure []
          | some .key =>
              skip
              let key ← orEmpty [.value, .flowEntry, .flowMappingEnd] (node false false fuel)
              let value ← flowValue fuel
              let rest ← flowPairs false fuel
              pure ((key, value) :: rest)
          | _ =>
              let key ← node false false fuel
              let rest ← flowPairs false fuel
              pure ((key, .empty) :: rest)

def flowValue : Nat → BuildM Node
  | 0 => failure
  | fuel + 1 => do
      match ← peek? with
      | some .value =>
          skip
          orEmpty [.flowEntry, .flowMappingEnd] (node false false fuel)
      | _ => pure .empty

end

/-! ## Documents -/

def isDirective : Token → Bool
  | .version _ _ => true
  | .tagHandle _ => true
  | _ => false

/-- The handles that have a meaning without a directive. -/
def standardHandles : List String := ["!", "!!"]

/-- Check the directives of a document and note the handles that they give a meaning. -/
def directives? (versionSeen : Bool) (handles : List String) : List Token → Option (List String)
  | [] => some handles
  | .version major minor :: rest =>
      if versionSeen || major ≠ 1 || (minor ≠ 1 && minor ≠ 2) then none
      else directives? true handles rest
  | .tagHandle handle :: rest =>
      if handles.contains handle then none else directives? versionSeen (handle :: handles) rest
  | _ :: _ => none

/-- The root of a document that starts at the first token. -/
def root? (handles : List String) (tokens : List Token) : Option (Node × List Token) := do
  let (result, b) ← (node true false (4 * tokens.length + 8)).run ⟨tokens, [], handles⟩
  pure (result, b.tokens)

/-- The root of a document after its start mark. -/
def rootOrEmpty? (handles : List String) : List Token → Option (Node × List Token)
  | [] => some (.empty, [])
  | token :: rest =>
      if isDirective token || token = .documentStart || token = .documentEnd then
        some (.empty, token :: rest)
      else root? handles (token :: rest)

/-- The first document of a text and what follows it. -/
def document? (tokens : List Token) : Option (Node × List Token) :=
  let head := tokens.takeWhile isDirective
  match head, tokens.drop head.length with
  | head, .documentStart :: rest => do
      let handles ← directives? false [] head
      rootOrEmpty? (handles ++ standardHandles) rest
  | [], tokens => root? standardHandles tokens
  | _, _ => none

end Builder

/-- The root of the only document of a text; an empty text has none. Fails if the text is not
well formed or has a second document. -/
def Node.parse? (text : String) : Option (Option Node) := do
  let tokens ← scan? text
  if tokens.isEmpty then pure none
  else
    let (node, rest) ← Builder.document? tokens
    if rest.all (· = .documentEnd) then pure (some node) else none

end StateLang.Yaml
