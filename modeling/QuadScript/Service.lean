import QuadScript.Pipeline
import QuadScript.Text.Encoding
import QuadScript.Tree.Json
import QuadScript.Url

/-!
# The compile service

The pipeline behind two routes: one that tells that the service is up, and one that compiles the
program in a request and answers with everything that was found out about it. How program text is
read is a parameter of the service; a request may also bring the program as a tree.
-/

namespace QuadScript

/-! ### Settings -/

namespace Tree

/-- White space around the numeral of a setting. The four separators among the controls do not
count. -/
def isPadding (c : Char) : Bool := Text.isBlank c && !(0x1c ≤ c.toNat && c.toNat ≤ 0x1f)

/-- The integer that a text is, white space around it allowed. Digits are counted before what
follows them is looked at. -/
def integerOfText (s : String) : Except Fault Int :=
  let (negative, cs) := Numeral.sign (s.toList.dropWhile isPadding)
  let numeral := cs.takeWhile fun c => Text.isDecimal c || c = '_'
  let rest := cs.dropWhile fun c => Text.isDecimal c || c = '_'
  match Numeral.separated? Text.decimal? numeral with
  | none => .error (.notANumeral s)
  | some digits =>
    if Numeral.digitLimit < digits.length then .error (.tooManyDigits digits.length)
    else if rest.all isPadding then .ok (Numeral.Integer.value ⟨negative, digits⟩)
    else .error (.notANumeral s)

/-- The integer that a setting stands for. -/
def toInteger : Tree → Except Fault Int
  | .bool b => .ok b.toNat
  | .num (.int n) => .ok n
  | .num (.float x) =>
    match Double.truncate? x with
    | some n => .ok n
    | none => .error (if x.isNaN then .nanToInteger else .infinityToInteger)
  | .str s => integerOfText s
  | t => .error (.notNumeric t.shape)

end Tree

structure Settings where
  maxSteps : Tree := .int Machine.defaultSteps
  maxPasses : Tree := .int Code.defaultPasses
  optimize : Tree := .bool true

/-! ### Requests -/

/-- The media type of a content type, without its parameters and in lower case. -/
def mediaType (contentType : String) : List Char :=
  (Text.strip (contentType.toList.takeWhile (· ≠ ';'))).map Char.toLower

def isJsonType (contentType : String) : Bool :=
  let type := mediaType contentType
  type = "application/json".toList ||
    "application/".toList.isPrefixOf type && "+json".toList.isSuffixOf type

/-- The data in the text of a request, if its type and the text itself are JSON. After a byte order
mark the text is taken as it is, otherwise in the encoding that its bytes show. -/
def payload? (contentType text : String) : Option Tree :=
  if isJsonType contentType then
    match text.toList with
    | '\uFEFF' :: rest => Tree.ofJson? (String.ofList rest)
    | _ => do Tree.ofJson? (← (Text.Encoding.detect (Text.bytes text)).decode? text)
  else none

structure Request where
  /-- The method as it was sent, in whatever case. -/
  method : String
  /-- The path, which a query may follow, or a whole URL. -/
  location : String
  payload : Option Tree := none
  settings : Settings := {}

/-! ### Routes -/

/-- The letters that a character is in upper case, as far as they are those of a method's name. -/
def upperLetters (c : Char) : List Char :=
  match c with
  | 'ı' => ['I']
  | 'ſ' => ['S']
  | 'ﬅ' => ['S', 'T']
  | 'ﬆ' => ['S', 'T']
  | c => [c.toUpper]

/-- The method that a request asks for. -/
def Request.verb (r : Request) : String := String.ofList (r.method.toList.flatMap upperLetters)

inductive Route
  | health
  | compile
  /-- A file that would be sent as it is; there is none. -/
  | file
deriving DecidableEq, Repr

namespace Route

/-- Whether a path is that of a file: its name does not start with a slash, and only at its start
may there be a line end. -/
def isFilePath (path : List Char) : Bool :=
  "/static/".toList.isPrefixOf path &&
    match path.drop "/static/".length with
    | [] => false
    | c :: rest => c ≠ '/' && !rest.contains '\n'

def ofPath? (path : List Char) : Option Route :=
  if path = "/health".toList then some .health
  else if path = "/compile".toList then some .compile
  else if isFilePath path then some .file
  else none

def methods : Route → List String
  | .health => ["GET", "HEAD", "OPTIONS"]
  | .compile => ["POST", "OPTIONS"]
  | .file => ["GET", "HEAD", "OPTIONS"]

end Route

/-- A status and the data of an answer, if it has any. -/
structure Response where
  status : Nat
  body : Option Tree := none

/-! ### Answers -/

/-- A number without a spelling in JSON is sent as its text. -/
def Operand.toJson : Operand → Tree
  | .num (.float x) => if x.isFinite then .num (.float x) else .str (Value.numberText (.float x))
  | a => a.toTree

def Quad.toJson (q : Quad) : Tree :=
  .record [("index", .int q.index), ("op", .str q.op.word), ("arg1", q.arg1.toJson),
    ("arg2", q.arg2.toJson), ("result", q.result.toTree)]

def textList (texts : List String) : Tree := .list (texts.map .str)

/-- The answer to a request that was not compiled. -/
def emptyAnswer (errors : List Tree) : Tree :=
  .record [("ast", .record []), ("errors", .list errors), ("warnings", .list []),
    ("symbol_table", .list []), ("statistics", .record []), ("report", .str ""), ("tac", .list []),
    ("tac_text", .list []), ("optimized_tac", .list []), ("optimized_tac_text", .list []),
    ("generator_warnings", .list []), ("output", .list [])]

def Compilation.toTree (c : Compilation) (tree : Tree) : Tree :=
  .record [("ast", tree), ("errors", .list (c.analysis.errors.map Diagnostic.toTree)),
    ("warnings", .list (c.analysis.warnings.map Diagnostic.toTree)),
    ("symbol_table", .list (c.analysis.rows.map SymbolRow.toTree)),
    ("statistics", c.analysis.statistics.toTree), ("report", .str c.report),
    ("tac", .list (c.code.map Quad.toJson)), ("tac_text", textList c.code.display),
    ("optimized_tac", .list (c.optimized.map Quad.toJson)),
    ("optimized_tac_text", textList c.optimized.display),
    ("generator_warnings", textList c.warnings), ("output", textList c.output)]

/-- Compiles a tree with the inputs of a request under the given settings. -/
def compileWith (tree inputs : Tree) (s : Settings) : Except Fault Compilation := do
  let maxSteps ← s.maxSteps.toInteger
  let maxPasses ← s.maxPasses.toInteger
  compile tree
    { inputs := inputs.orElse (.list []), optimize := s.optimize.truthy, maxSteps := maxSteps
      maxPasses := maxPasses }

/-- The answer to a request with a program tree. -/
def answerTree (tree inputs : Tree) (s : Settings) : Response :=
  match compileWith tree inputs s with
  | .ok c => ⟨200, some (c.toTree tree)⟩
  | .error f => ⟨500, some (emptyAnswer [.str ("Unexpected error: " ++ f.message)])⟩

/-- The answer to a compile request: a tree is taken before program text. -/
def answerCompile (parse : String → Except SyntaxError Tree) (r : Request) : Response :=
  let refusal := "Request body must be JSON with a 'code' or 'ast' field"
  match r.payload with
  | some (.record fields) =>
    let field (name : String) := (Tree.field? name fields).getD .null
    if (Tree.field? "code" fields).isNone && (Tree.field? "ast" fields).isNone then
      ⟨400, some (emptyAnswer [.str refusal])⟩
    else
      match field "ast" with
      | .null =>
        match parse ((field "code").orElse (.str "")).text with
        | .ok tree => answerTree tree (field "inputs") r.settings
        | .error e => ⟨400, some (emptyAnswer [e.toTree])⟩
      | tree => answerTree tree (field "inputs") r.settings
  | _ => ⟨400, some (emptyAnswer [.str refusal])⟩

/-- The answer of a route to a request with a method it allows. One that asks for the allowed
methods succeeds. -/
def Route.answer (parse : String → Except SyntaxError Tree) (r : Request) (route : Route) :
    Response :=
  if r.verb = "OPTIONS" then ⟨200, none⟩
  else
    match route with
    | .health => ⟨200, some (.record [("status", .str "ok")])⟩
    | .compile => answerCompile parse r
    | .file => ⟨404, none⟩

/-- The answer to a request that a route was found for, if the route allows it. -/
def Route.admit (r : Request) (url : Url) (route : Route) (answer : Response) : Response :=
  if !route.methods.contains r.verb then ⟨405, none⟩
  else if url.isSocket then ⟨400, none⟩
  else answer

/-- The answer to a request, before it is decided whether its data is sent. A path that has a route
only if repeated slashes are made one is redirected there. -/
def route (parse : String → Except SyntaxError Tree) (r : Request) : Response :=
  let url := Url.ofText r.location
  match Route.ofPath? url.path with
  | some route => route.admit r url (route.answer parse r)
  | none =>
    match Route.ofPath? (Url.mergeSlashes url.path) with
    | some route => route.admit r url ⟨308, none⟩
    | none => ⟨404, none⟩

/-- The answer to a request. One for the head of an answer, spelled so, gets no data. -/
def serve (parse : String → Except SyntaxError Tree) (r : Request) : Response :=
  let answer := route parse r
  if r.method = "HEAD" then { answer with body := none } else answer

end QuadScript
