import TestHooks.Proxy.Member
import TestHooks.Swift.File

/-!
# The proxy extension

The generated code is one extension with a conditional block that holds the proxy type and the property that
makes a proxy. It is read back before it is handed out.
-/

namespace TestHooks.Proxy

open TestHooks.Text

/-- The forwarding members of a proxy, as text, in the order in which they are written. -/
structure Fragments where
  instanceProperties : String := ""
  instanceFunctions : String := ""
  staticProperties : String := ""
  staticFunctions : String := ""
  deriving DecidableEq, Repr

def Fragments.ordered (f : Fragments) : List String :=
  [f.instanceProperties, f.instanceFunctions, f.staticProperties, f.staticFunctions]

/-- What the extension is made for. -/
structure Plan where
  typeName : String
  reference : String := plainReference
  condition : String := "DEBUG"
  indent : String := spaces 4
  deriving DecidableEq, Repr

/-- The lines of a fragment inside the proxy type. Empty lines stay empty. -/
def fragmentLines (fragment : String) : List Line :=
  if fragment.isEmpty then [] else (lines fragment).map fun text => ⟨if text.isEmpty then 0 else 2, text⟩

/-- The lines before the forwarding members. -/
def openingLines (plan : Plan) : List Line :=
  [⟨0, "extension " ++ plan.typeName ++ " \x7b"⟩,
    ⟨1, "#if " ++ plan.condition⟩,
    ⟨1, "var testHooks: TestHooks \x7b"⟩,
    ⟨2, "return TestHooks(target: self)"⟩,
    ⟨1, "\x7d"⟩,
    ⟨1, "struct TestHooks \x7b"⟩,
    ⟨2, "private var " ++ plan.reference ++ ": " ++ plan.typeName⟩,
    ⟨2, "fileprivate init(target: " ++ plan.typeName ++ ") \x7b"⟩,
    ⟨3, "self." ++ plan.reference ++ " = target"⟩,
    ⟨2, "\x7d"⟩]

/-- The lines after the forwarding members. -/
def closingLines : List Line :=
  [⟨1, "\x7d"⟩, ⟨1, "#endif"⟩, ⟨0, "\x7d"⟩]

def extensionLines (plan : Plan) (fragments : Fragments) : List Line :=
  openingLines plan ++ fragments.ordered.flatMap fragmentLines ++ closingLines

/-- The extension as text, without a line break at the end. -/
def writeExtension (plan : Plan) (fragments : Fragments) : String :=
  writeLines plan.indent (extensionLines plan fragments)

/-- True for exactly one declaration, an extension. -/
def isSingleExtension : List Swift.Decl → Bool
  | [.group _ header _] => header.keyword == .extensionType
  | _ => false

/-- What is wrong with generated code, as a diagnostic at the marker. -/
def complaint? (code : String) (site : Option Position) : Option Diagnostic :=
  match Swift.parse code with
  | .error e => some ⟨.error, "Generated extension is not valid Swift: " ++ e.message, site⟩
  | .ok decls =>
    if isSingleExtension decls then none
    else some ⟨.error, "Generated code is not a single extension declaration", site⟩

/-- The extension, if it reads back as one. -/
def assemble (plan : Plan) (fragments : Fragments) (site : Option Position) : Except Diagnostic String :=
  let code := writeExtension plan fragments
  match complaint? code site with
  | some d => .error d
  | none => .ok code

theorem assemble_eq_ok_iff {plan : Plan} {fragments : Fragments} {site : Option Position} {code : String} :
    assemble plan fragments site = .ok code ↔ code = writeExtension plan fragments ∧ complaint? code site = none := by
  cases hc : complaint? (writeExtension plan fragments) site with
  | some d =>
    constructor
    · intro h
      simp [assemble, hc] at h
    · rintro ⟨rfl, h⟩
      rw [hc] at h
      cases h
  | none =>
    constructor
    · intro h
      simp only [assemble, hc, Except.ok.injEq] at h
      exact ⟨h.symm, h ▸ hc⟩
    · rintro ⟨rfl, -⟩
      simp [assemble, hc]

end TestHooks.Proxy
