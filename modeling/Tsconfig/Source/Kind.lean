import Tsconfig.Path.Basic

/-! What language a file is in. -/
namespace Tsconfig.Source

inductive Kind
  | ts | tsx | js | jsx | json | component
  deriving DecidableEq, Repr

namespace Kind

/-- The language that the extension of a path tells; TypeScript if it tells none. -/
def ofPath (path : String) : Kind :=
  match Path.extension path with
  | ".tsx" => tsx
  | ".js" | ".mjs" | ".cjs" => js
  | ".jsx" => jsx
  | ".json" => json
  | ".vue" => component
  | _ => ts

/-- The language of a script in a component, told by its `lang` attribute; JavaScript without. -/
def ofLang (lang : Option String) : Kind :=
  match lang.map String.toLower with
  | some "ts" => ts
  | some "tsx" => tsx
  | some "jsx" => jsx
  | _ => js

def name : Kind → String
  | ts => "ts"
  | tsx => "tsx"
  | js => "js"
  | jsx => "jsx"
  | json => "json"
  | component => "vue"

end Kind
end Tsconfig.Source
