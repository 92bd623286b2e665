import Tsconfig.CompilerOptions.Choice

/-! The known options and the kinds of their values. -/
namespace Tsconfig

/-- What values an option takes. -/
inductive OptionKind
  | boolean
  | text
  | number
  /-- A path, relative to the directory of the config that declares it. -/
  | path
  | texts
  | paths
  /-- Accepted names with the canonical names they stand for. -/
  | choice (choices : List (String × String))
  /-- Names of library files. -/
  | libraries
  /-- Lists of texts by pattern. -/
  | pathMap
  | anything

namespace OptionKind

/-- Choices whose accepted names are the canonical ones. -/
def plainChoice (names : List String) : OptionKind := choice (names.map fun name => (name, name))

/-- Choices of an enumeration, with the names it gives its values. -/
def choiceOf {α : Type} (name : α → String) (choices : List (String × α)) : OptionKind :=
  choice (choices.map fun (accepted, value) => (accepted, name value))

def booleanNames : List String :=
  ["allowArbitraryExtensions", "allowImportingTsExtensions", "allowJs", "allowNonTsExtensions",
   "allowSyntheticDefaultImports", "allowUmdGlobalAccess", "allowUnreachableCode",
   "allowUnusedLabels", "alwaysStrict", "assumeChangesOnlyAffectDirectDependencies", "checkJs",
   "composite", "declaration", "declarationMap", "diagnostics", "disableReferencedProjectLoad",
   "disableSizeLimit", "disableSolutionSearching", "disableSourceOfProjectReferenceRedirect",
   "downlevelIteration", "emitBOM", "emitDeclarationOnly", "emitDecoratorMetadata",
   "erasableSyntaxOnly", "esModuleInterop", "exactOptionalPropertyTypes",
   "experimentalDecorators", "explainFiles", "extendedDiagnostics",
   "forceConsistentCasingInFileNames", "importHelpers", "incremental", "inlineSourceMap",
   "inlineSources", "isolatedDeclarations", "isolatedModules", "keyofStringsOnly",
   "libReplacement", "listEmittedFiles", "listFiles", "noCheck", "noEmit", "noEmitHelpers",
   "noEmitOnError", "noErrorTruncation", "noFallthroughCasesInSwitch", "noImplicitAny",
   "noImplicitOverride", "noImplicitReturns", "noImplicitThis", "noImplicitUseStrict", "noLib",
   "noPropertyAccessFromIndexSignature", "noResolve", "noStrictGenericChecks",
   "noUncheckedIndexedAccess", "noUncheckedSideEffectImports", "noUnusedLocals",
   "noUnusedParameters", "preserveConstEnums", "preserveSymlinks", "preserveValueImports",
   "pretty", "removeComments", "resolveJsonModule", "resolvePackageJsonExports",
   "resolvePackageJsonImports", "rewriteRelativeImportExtensions", "skipDefaultLibCheck",
   "skipLibCheck", "sourceMap", "strict", "strictBindCallApply", "strictBuiltinIteratorReturn",
   "strictFunctionTypes", "strictNullChecks", "strictPropertyInitialization", "stripInternal",
   "suppressExcessPropertyErrors", "suppressImplicitAnyIndexErrors", "traceResolution",
   "useDefineForClassFields", "useUnknownInCatchVariables", "verbatimModuleSyntax"]

def textNames : List String :=
  ["charset", "jsxFactory", "jsxFragmentFactory", "jsxImportSource", "locale", "mapRoot",
   "reactNamespace", "sourceRoot"]

def pathNames : List String :=
  ["baseUrl", "configFilePath", "declarationDir", "out", "outDir", "outFile", "pathsBasePath",
   "rootDir", "tsBuildInfoFile"]

/-- The options that are neither boolean, nor texts, nor single paths. -/
def others : List (String × OptionKind) :=
  [("maxNodeModuleJsDepth", number),
   ("customConditions", texts), ("moduleSuffixes", texts), ("types", texts),
   ("rootDirs", paths), ("typeRoots", paths),
   ("target", choiceOf ScriptTarget.name ScriptTarget.choices),
   ("module", choiceOf ModuleKind.name ModuleKind.choices),
   ("moduleResolution", choiceOf ResolutionKind.name ResolutionKind.choices),
   ("jsx", plainChoice ["preserve", "react", "react-native", "react-jsx", "react-jsxdev"]),
   ("newLine", plainChoice ["crlf", "lf"]),
   ("importsNotUsedAsValues", plainChoice ["remove", "preserve", "error"]),
   ("moduleDetection", plainChoice ["auto", "legacy", "force"]),
   ("lib", libraries), ("paths", pathMap), ("plugins", anything)]

def ofName? (name : String) : Option OptionKind :=
  if name ∈ booleanNames then some boolean
  else if name ∈ textNames then some text
  else if name ∈ pathNames then some path
  else OrderedMap.find? name others

end OptionKind
end Tsconfig
