import SmallLisp.Yaml.Stream

namespace SmallLisp.Yaml

structure Scalar where
  text : String
  tag : String
  isPlain : Bool
deriving DecidableEq, Repr

inductive Node where
  | scalar (s : Scalar) (line : Nat)
  | list (items : List Node) (line : Nat)
  | map (entries : List (Node × Node)) (line : Nat)
  | reference (target : Option Node) (line : Nat)

def Node.empty (line : Nat) : Node := .scalar ⟨"", "", true⟩ line

structure Anchor where
  name : String
  number : Nat
  target : Option Node

structure Reading where
  stream : Stream
  anchors : List Anchor
  handles : List (String × String)

abbrev ReadM := StateT Reading (Except Error)

namespace ReadM

def peek : ReadM Token := do
  let r ← get
  let (token, stream) ← r.stream.peek
  set { r with stream := stream }
  pure token

def skip : ReadM Unit := modify fun r => { r with stream := r.stream.skip }

def advance : ReadM Token := do
  skip
  peek

def fail {α : Type} (problem : Problem) (line : Nat) : ReadM α :=
  throw (.inOrder problem line)

def openAnchor (name : String) (number : Nat) : ReadM Unit :=
  modify fun r => { r with anchors := ⟨name, number, none⟩ :: r.anchors }

def closeAnchor (number : Nat) (node : Node) : ReadM Unit :=
  let complete (a : Anchor) := if a.number = number then { a with target := some node } else a
  modify fun r => { r with anchors := r.anchors.map complete }

def resolveTag (handle suffix : String) (line : Nat) : ReadM String := do
  if handle = "" then pure suffix
  else
    match (← get).handles.lookup handle with
    | some start =>
        if start ++ suffix = "" then fail .unknownTagHandle line else pure (start ++ suffix)
    | none => fail .unknownTagHandle line

structure Properties where
  anchor : Option String
  tag : String
  line : Nat

def properties : ReadM (Properties × Token) := do
  let token ← peek
  match token.kind with
  | .anchor name =>
      let next ← advance
      match next.kind with
      | .tag handle suffix =>
          let rest ← advance
          let tag ← resolveTag handle suffix next.line
          pure (⟨some name, tag, token.line⟩, rest)
      | _ => pure (⟨some name, "", token.line⟩, next)
  | .tag handle suffix =>
      let next ← advance
      match next.kind with
      | .anchor name =>
          let rest ← advance
          let tag ← resolveTag handle suffix token.line
          pure (⟨some name, tag, token.line⟩, rest)
      | _ =>
          let tag ← resolveTag handle suffix token.line
          pure (⟨none, tag, token.line⟩, next)
  | _ => pure (⟨none, "", token.line⟩, token)

end ReadM

open ReadM

def referenceTo (name : String) (line : Nat) : ReadM Node := do
  match (← get).anchors.find? (·.name = name) with
  | some a => pure (.reference a.target line)
  | none => throw ⟨.unknownAnchor name, none⟩

mutual

/-- Reads a node. Only within a block may it be a block itself, and only as a part of an entry may
it be a list that is not indented. -/
def readNode : Nat → (inBlock flush : Bool) → ReadM Node
  | 0, _, _ => do fail .outOfFuel (← peek).line
  | fuel + 1, inBlock, flush => do
      let first ← peek
      match first.kind with
      | .reference name =>
          skip
          referenceTo name first.line
      | _ =>
          let number := (← get).stream.taken
          let (props, token) ← properties
          if let some name := props.anchor then openAnchor name number
          let node ← readContent fuel inBlock flush props token
          closeAnchor number node
          pure node

def readContent : Nat → (inBlock flush : Bool) → Properties → Token → ReadM Node
  | 0, _, _, _, token => fail .outOfFuel token.line
  | fuel + 1, inBlock, flush, props, token => do
      match token.kind, inBlock, flush with
      | .blockEntry, _, true => pure (.list (← readFlushItems fuel) props.line)
      | .scalar text isPlain, _, _ =>
          skip
          let isPlain := (props.tag = "" && isPlain) || props.tag = "!"
          pure (.scalar ⟨text, props.tag, isPlain⟩ props.line)
      | .flowListStart, _, _ =>
          skip
          pure (.list (← readFlowItems fuel true) props.line)
      | .flowMapStart, _, _ =>
          skip
          pure (.map (← readFlowEntries fuel true) props.line)
      | .blockListStart, true, _ =>
          skip
          pure (.list (← readBlockItems fuel) props.line)
      | .blockMapStart, true, _ =>
          skip
          pure (.map (← readBlockEntries fuel) props.line)
      | _, _, _ =>
          if props.anchor.isSome || props.tag ≠ "" then
            pure (.scalar ⟨"", props.tag, props.tag = ""⟩ props.line)
          else fail .noContent token.line

def readBlockItems : Nat → ReadM (List Node)
  | 0 => do fail .outOfFuel (← peek).line
  | fuel + 1 => do
      let token ← peek
      match token.kind with
      | .blockEntry =>
          let next ← advance
          let item ←
            match next.kind with
            | .blockEntry => pure (Node.empty token.line)
            | .blockEnd => pure (Node.empty token.line)
            | _ => readNode fuel true false
          pure (item :: (← readBlockItems fuel))
      | .blockEnd =>
          skip
          pure []
      | _ => fail .noEntry token.line

def readFlushItems : Nat → ReadM (List Node)
  | 0 => do fail .outOfFuel (← peek).line
  | fuel + 1 => do
      let token ← peek
      match token.kind with
      | .blockEntry =>
          let next ← advance
          let item ←
            match next.kind with
            | .blockEntry => pure (Node.empty token.line)
            | .key => pure (Node.empty token.line)
            | .value => pure (Node.empty token.line)
            | .blockEnd => pure (Node.empty token.line)
            | _ => readNode fuel true false
          pure (item :: (← readFlushItems fuel))
      | _ => pure []

def readBlockEntries : Nat → ReadM (List (Node × Node))
  | 0 => do fail .outOfFuel (← peek).line
  | fuel + 1 => do
      let token ← peek
      match token.kind with
      | .key =>
          let next ← advance
          let key ←
            match next.kind with
            | .key => pure (Node.empty token.line)
            | .value => pure (Node.empty token.line)
            | .blockEnd => pure (Node.empty token.line)
            | _ => readNode fuel true true
          let value ← readBlockValue fuel
          pure ((key, value) :: (← readBlockEntries fuel))
      | .blockEnd =>
          skip
          pure []
      | _ => fail .noKey token.line

def readBlockValue : Nat → ReadM Node
  | 0 => do fail .outOfFuel (← peek).line
  | fuel + 1 => do
      let token ← peek
      match token.kind with
      | .value =>
          let next ← advance
          match next.kind with
          | .key => pure (Node.empty token.line)
          | .value => pure (Node.empty token.line)
          | .blockEnd => pure (Node.empty token.line)
          | _ => readNode fuel true true
      | _ => pure (Node.empty token.line)

def readFlowItems : Nat → (isFirst : Bool) → ReadM (List Node)
  | 0, _ => do fail .outOfFuel (← peek).line
  | fuel + 1, isFirst => do
      let token ← peek
      match token.kind, isFirst with
      | .flowListEnd, _ =>
          skip
          pure []
      | _, true => readFlowItemsFrom fuel token
      | .flowEntry, false =>
          let next ← advance
          readFlowItemsFrom fuel next
      | _, false => fail .noListEnd token.line

def readFlowItemsFrom : Nat → Token → ReadM (List Node)
  | 0, token => fail .outOfFuel token.line
  | fuel + 1, token => do
      match token.kind with
      | .flowListEnd =>
          skip
          pure []
      | .key =>
          let next ← advance
          let entry ← readPair fuel next
          pure (.map [entry] token.line :: (← readFlowItems fuel false))
      | _ =>
          let item ← readNode fuel false false
          pure (item :: (← readFlowItems fuel false))

def readPair : Nat → Token → ReadM (Node × Node)
  | 0, token => fail .outOfFuel token.line
  | fuel + 1, token => do
      let key ←
        match token.kind with
        | .value => do skip; pure (Node.empty token.line)
        | .flowEntry => do skip; pure (Node.empty token.line)
        | .flowListEnd => do skip; pure (Node.empty token.line)
        | _ => readNode fuel false false
      let next ← peek
      match next.kind with
      | .value =>
          let content ← advance
          match content.kind with
          | .flowEntry => pure (key, Node.empty content.line)
          | .flowListEnd => pure (key, Node.empty content.line)
          | _ => pure (key, ← readNode fuel false false)
      | _ => pure (key, Node.empty next.line)

def readFlowEntries : Nat → (isFirst : Bool) → ReadM (List (Node × Node))
  | 0, _ => do fail .outOfFuel (← peek).line
  | fuel + 1, isFirst => do
      let token ← peek
      match token.kind, isFirst with
      | .flowMapEnd, _ =>
          skip
          pure []
      | _, true => readFlowEntriesFrom fuel token
      | .flowEntry, false =>
          let next ← advance
          readFlowEntriesFrom fuel next
      | _, false => fail .noMapEnd token.line

def readFlowEntriesFrom : Nat → Token → ReadM (List (Node × Node))
  | 0, token => fail .outOfFuel token.line
  | fuel + 1, token => do
      match token.kind with
      | .flowMapEnd =>
          skip
          pure []
      | .key =>
          let next ← advance
          let key ←
            match next.kind with
            | .value => pure (Node.empty next.line)
            | .flowEntry => pure (Node.empty next.line)
            | .flowMapEnd => pure (Node.empty next.line)
            | _ => readNode fuel false false
          let value ← readFlowValue fuel
          pure ((key, value) :: (← readFlowEntries fuel false))
      | _ =>
          let key ← readNode fuel false false
          let next ← peek
          pure ((key, Node.empty next.line) :: (← readFlowEntries fuel false))

def readFlowValue : Nat → ReadM Node
  | 0 => do fail .outOfFuel (← peek).line
  | fuel + 1 => do
      let token ← peek
      match token.kind with
      | .value =>
          let next ← advance
          match next.kind with
          | .flowEntry => pure (Node.empty next.line)
          | .flowMapEnd => pure (Node.empty next.line)
          | _ => readNode fuel false false
      | _ => pure (Node.empty token.line)

end

def standardHandles : List (String × String) := [("!", "!"), ("!!", "tag:yaml.org,2002:")]

def readDirectives : Nat → (versionSeen : Bool) → List (String × String) →
    ReadM (List (String × String))
  | 0, _, _ => do fail .outOfFuel (← peek).line
  | fuel + 1, versionSeen, handles => do
      let token ← peek
      match token.kind with
      | .version major minor =>
          if versionSeen then fail .repeatedVersion token.line
          else if major ≠ 1 ∨ minor ≠ 1 then fail .wrongVersion token.line
          else
            skip
            readDirectives fuel true handles
      | .tagHandle handle start =>
          if (handles.lookup handle).isSome then fail .repeatedTagHandle token.line
          else
            skip
            readDirectives fuel versionSeen (handles ++ [(handle, start)])
      | _ => pure handles

def readRoot (fuel : Nat) : ReadM Node := do
  let token ← peek
  match token.kind with
  | .version _ _ => pure (Node.empty token.line)
  | .tagHandle _ _ => pure (Node.empty token.line)
  | .documentStart => pure (Node.empty token.line)
  | .documentEnd => pure (Node.empty token.line)
  | .streamEnd => pure (Node.empty token.line)
  | _ => readNode fuel true false

def readDocument (fuel : Nat) : ReadM (Option Node) := do
  let token ← peek
  match token.kind with
  | .streamEnd => pure none
  | _ =>
      let handles ← readDirectives fuel false []
      modify fun r => { r with handles := handles ++ standardHandles }
      let start ← peek
      let node ←
        match start.kind with
        | .documentStart => do
            skip
            readRoot fuel
        | _ =>
            if start = token then readNode fuel true false
            else fail .noDocumentStart start.line
      let _ ← peek
      pure (some node)

def Node.parse (text : List Char) : Except Error (Option Node) :=
  let fuel := 8 * (text.length + 4)
  ((readDocument fuel).run ⟨.ofText text, [], []⟩).map (·.1)

end SmallLisp.Yaml
