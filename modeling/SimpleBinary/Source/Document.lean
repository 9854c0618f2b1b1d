import SimpleBinary.Json.Record
import SimpleBinary.Source.Package

/-!
# The document of a configuration

A configuration names its language; the policy for reserved words and the package may be left out.
-/

namespace SimpleBinary

def Language.ofJson? (j : Json) : Option Language :=
  j.choice? (Language.all.map fun l => (l.name, l))

def KeywordPolicy.ofJson? (j : Json) : Option KeywordPolicy := do
  let r ← Record.ofJson? ["append_token"] j
  return ⟨← r.nullable "append_token" Json.text?⟩

def SourceConfig.ofJson? (j : Json) : Option SourceConfig := do
  let r ← Record.ofJson? ["language", "keyword_policy", "package_override"] j
  return {
    language := ← r.required "language" Language.ofJson?
    policy := ← r.defaulted "keyword_policy" ⟨none⟩ KeywordPolicy.ofJson?
    packageOverride := ← r.optional "package_override" Json.text? }

end SimpleBinary
