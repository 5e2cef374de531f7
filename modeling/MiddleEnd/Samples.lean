import MiddleEnd.Graph.Builder

/-!
Small functions, built the way a front end lowers them.
-/
namespace MiddleEnd

/-- A named function with its source form. -/
structure Sample where
  name : String
  doc : String
  sig : Signature
  params : List String
  body : StateM Builder Unit

namespace Sample

/-- A statement that yields a variable or a vertex. -/
def yields {α : Type} (statement : Builder → α × Builder) : StateM Builder α :=
  modifyGet statement

/-- A statement that yields nothing. -/
def does (statement : Builder → Builder) : StateM Builder Unit :=
  modify statement

def var (name : String) : StateM Builder VarId :=
  yields (·.var name)

def const (value : Literal) : StateM Builder VarId :=
  yields (·.const value)

def int (n : Int64) : StateM Builder VarId :=
  const (.long n)

def str (text : String) : StateM Builder VarId :=
  const (.string (utf8Bytes text))

def binary (op : BinOp) (x y : VarId) : StateM Builder VarId :=
  yields (·.binary op (some x) (some y))

def binaryInto (dst : VarId) (op : BinOp) (x y : VarId) : StateM Builder Unit :=
  does fun b => (b.binaryInto (some dst) op (some x) (some y)).2

def assign (dst src : VarId) : StateM Builder Unit :=
  does fun b => (b.assign (some dst) (some src)).2

def call (callee : String) (args : List VarId) : StateM Builder VarId :=
  yields (·.call callee (args.map some))

def echo (x : VarId) : StateM Builder Unit :=
  does fun b => (b.echo [some x]).2

def label : StateM Builder VertexId :=
  yields (·.label)

def bind (l : VertexId) : StateM Builder Unit :=
  does (·.bind l)

def jump (l : VertexId) : StateM Builder Unit :=
  does (·.jump l)

def jumpIf (cond : VarId) (thenTo elseTo : VertexId) : StateM Builder Unit :=
  does (·.jumpIf (some cond) thenTo elseTo)

def ret (x : VarId) : StateM Builder Unit :=
  does (·.ret (some x))

def fibo : Sample where
  name := "fibo"
  doc := "function fibo(long n): long \x7b if (n < 2) \x7b r = 1; \x7d else \x7b r = fibo(n-1) + fibo(n-2); \x7d return r; \x7d"
  sig := ⟨[some .long], .long⟩
  params := ["n"]
  body := do
    let n ← var "n"
    let r ← var "r"
    let small ← label
    let big ← label
    let done ← label
    jumpIf (← binary .smaller n (← int 2)) small big
    bind small
    assign r (← int 1)
    jump done
    bind big
    let x ← call "fibo" [← binary .minus n (← int 1)]
    let y ← call "fibo" [← binary .minus n (← int 2)]
    binaryInto r .plus x y
    jump done
    bind done
    ret r

def sum : Sample where
  name := "sum"
  doc := "function sum(long n): long \x7b s = 0; i = 0; while (i < n) \x7b s = s + i; i = i + 1; \x7d return s; \x7d"
  sig := ⟨[some .long], .long⟩
  params := ["n"]
  body := do
    let n ← var "n"
    let s ← var "s"
    let i ← var "i"
    let head ← label
    let body ← label
    let done ← label
    assign s (← int 0)
    assign i (← int 0)
    bind head
    jumpIf (← binary .smaller i n) body done
    bind body
    binaryInto s .plus s i
    binaryInto i .plus i (← int 1)
    jump head
    bind done
    ret s

/-- Two ways to set `r`, joined before it is returned. -/
def choose (cond : StateM Builder VarId) (whenTrue whenFalse : StateM Builder VarId) (r : VarId) :
    StateM Builder Unit := do
  let yes ← label
  let no ← label
  let done ← label
  jumpIf (← cond) yes no
  bind yes
  assign r (← whenTrue)
  jump done
  bind no
  assign r (← whenFalse)
  jump done
  bind done
  ret r

def max : Sample where
  name := "max"
  doc := "function max(long a, long b): long \x7b if (a > b) \x7b r = a; \x7d else \x7b r = b; \x7d return r; \x7d"
  sig := ⟨[some .long, some .long], .long⟩
  params := ["a", "b"]
  body := do
    let x ← var "a"
    let y ← var "b"
    let r ← var "r"
    choose (binary .greater x y) (pure x) (pure y) r

def clamp : Sample where
  name := "clamp"
  doc := "function clamp(double x): double \x7b if (x < 0.0) \x7b r = 0.0; \x7d else \x7b r = x; \x7d return r; \x7d"
  sig := ⟨[some .double], .double⟩
  params := ["x"]
  body := do
    let x ← var "x"
    let r ← var "r"
    choose (do binary .smaller x (← const (.double 0.0))) (const (.double 0.0)) (pure x) r

def fold : Sample where
  name := "fold"
  doc := "function fold(): long \x7b r = 6 * 7; if (true) \x7b echo 1 < 2; \x7d else \x7b echo \"no\"; \x7d return r; \x7d"
  sig := ⟨[], .long⟩
  params := []
  body := do
    let r ← var "r"
    let yes ← label
    let no ← label
    let done ← label
    binaryInto r .mul (← int 6) (← int 7)
    jumpIf (← const (.bool true)) yes no
    bind yes
    echo (← binary .smaller (← int 1) (← int 2))
    jump done
    bind no
    echo (← str "no")
    jump done
    bind done
    ret r

def dead : Sample where
  name := "dead"
  doc := "function dead(): void \x7b x = 1 + 2; y = x . \"!\"; echo \"live\"; \x7d"
  sig := .empty
  params := []
  body := do
    let x ← var "x"
    binaryInto x .plus (← int 1) (← int 2)
    binaryInto (← var "y") .concat x (← str "!")
    echo (← str "live")

def greet : Sample where
  name := "greet"
  doc := "function greet(string name): string \x7b return \"hello \" . name; \x7d"
  sig := ⟨[some .string], .string⟩
  params := ["name"]
  body := do
    let hello ← str "hello "
    ret (← binary .concat hello (← var "name"))

def bigger : Sample where
  name := "bigger"
  doc := "function bigger(): long \x7b return max(3, 4); \x7d"
  sig := ⟨[], .long⟩
  params := []
  body := do
    ret (← call "max" [← int 3, ← int 4])

def external : Sample where
  name := "external"
  doc := "function external(string s): long \x7b return strlen(s); \x7d"
  sig := ⟨[some .string], .long⟩
  params := ["s"]
  body := do
    ret (← call "strlen" [← var "s"])

/-- Every sample, ordered by name. -/
def all : List Sample :=
  [bigger, clamp, dead, external, fibo, fold, greet, max, sum]

def find? (name : String) : Option Sample :=
  all.find? (·.name == name)

/-- The signatures of the samples, for calls between them. -/
def signatures : Signatures :=
  all.map fun s => (s.name, s.sig)

/-- A fresh graph of a sample. -/
def build (s : Sample) : Graph :=
  let g := Graph.empty s.name s.sig
  let start := (Builder.start s.name s.sig s.params).toOption.getD ⟨g, some g.entry, []⟩
  (s.body.run start).2.finish.graph

end Sample

end MiddleEnd
