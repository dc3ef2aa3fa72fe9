import CoordSplit.Catalog.OfNode
import CoordSplit.Catalog.OfToml
import CoordSplit.Catalog.Standard
import CoordSplit.Diagnostic
import CoordSplit.Toml.Reader
import CoordSplit.Yaml.Reader

/-!
# Catalogs from documents

A catalog is described by a table of keys or by a document in block style or in braces; the extension of a
file's name says by which.
-/

set_option autoImplicit false

namespace CoordSplit

/-- The described catalog. -/
def CatalogSpec.catalog (s : CatalogSpec) : Except Diagnostic Catalog :=
  match s.build with
  | .error e => .error (.plain e.message)
  | .ok c => .ok c

namespace Catalog

/-- The catalog that a document describes. -/
def ofYaml (t : Text) : Except Diagnostic Catalog :=
  match (Yaml.read t).bind CatalogSpec.ofNode? with
  | none => .error ⟨"decode yaml", .undecodable .yaml, none⟩
  | some s => s.catalog

/-- The keys of a table that say nothing about a catalog. -/
def unknownKeys (d : Toml.Document) : List Toml.Path :=
  d.keys.filter fun k => !CatalogSpec.isKnownKey d.table k

/-- The catalog that a table of keys describes. -/
def ofToml (t : Text) : Except Diagnostic Catalog := do
  let failed : Diagnostic := ⟨"decode toml", .undecodable .toml, none⟩
  match Toml.read t with
  | none => throw failed
  | some d =>
    match CatalogSpec.ofTable? d.table with
    | none => throw failed
    | some s =>
      let unknown := unknownKeys d
      if unknown.isEmpty then s.catalog
      else throw (.plain (Text.concat
        ["unknown keys: [", Text.join [32] (unknown.map Toml.pathText), "]"]))

/-- The catalog in a file with a name and contents; a file without contents does not exist. -/
def ofFile (name : Text) (data : Option Text) : Except Diagnostic Catalog :=
  match data with
  | none => .error ⟨"read catalog", .file, none⟩
  | some t =>
    let ext := Text.lower (Text.fileExtension name)
    let inFile (r : Except Diagnostic Catalog) : Except Diagnostic Catalog := r.mapError (·.within name)
    if ext = (".toml" : Text) then inFile (ofToml t)
    else if ([".yaml", ".yml", ".json"].map Text.ofString).contains ext then inFile (ofYaml t)
    else .error (.plain ("unsupported catalog format: " ++ Text.quote ext))

/-- The built-in catalog. -/
def standard : Except Diagnostic Catalog := CatalogSpec.standard.catalog

end Catalog

end CoordSplit
