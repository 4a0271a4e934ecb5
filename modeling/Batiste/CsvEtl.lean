import Batiste.JsNumber
import Batiste.JsString

/-! `CsvEtl.parseContent`. A string is the list of its UTF-16 code units. -/
namespace Batiste
namespace CsvEtl

abbrev Text := List UInt16

/-- A character of the first plane. -/
def unit (c : Char) : UInt16 := UInt16.ofNat c.toNat

def ascii (text : String) : Text := text.toList.map unit

def quote : UInt16 := unit '"'

def cr : UInt16 := unit '\r'

def lf : UInt16 := unit '\n'

def isSpace (u : UInt16) : Bool := JsString.isSpace (Char.ofNat u.toNat)

def trim (text : Text) : Text := (text.dropWhile isSpace).rdropWhile isSpace

/-- The own properties of a row, in the order they were assigned. -/
abbrev CsvRow := List (Text × Text)

structure CsvParseOptions where
  delimiter : Text := ascii ","
  hasHeaders : Bool := true
  maxRows : Option JsNumber := none
  skipEmpty : Bool := true

/-! ## Lines -/

/-- `content.replace(/\r\n/g, '\n')` -/
def replaceCrLf : Text → Text
  | [] => []
  | [u] => [u]
  | u :: v :: rest =>
    if u = cr ∧ v = lf then lf :: replaceCrLf rest else u :: replaceCrLf (v :: rest)

/-- `content.replace(/\r/g, '\n')` -/
def replaceCr (content : Text) : Text := content.map fun u => if u = cr then lf else u

def splitLines (content : Text) : List Text := (replaceCr (replaceCrLf content)).splitOn lf

/-! ## Fields -/

/-- The loop of `parseRow`: the rest of the line, and the fields from the current one on. -/
def parseFields (delimiter : Text) : Bool → Text → Text → List Text
  | _, current, [] => [current]
  | inQuotes, current, [u] =>
    if u = quote then [current]
    else if [u] = delimiter ∧ inQuotes = false then [current, []]
    else [current ++ [u]]
  | inQuotes, current, u :: v :: rest =>
    if u = quote then
      if inQuotes = true ∧ v = quote then parseFields delimiter inQuotes (current ++ [quote]) rest
      else parseFields delimiter (!inQuotes) current (v :: rest)
    else if [u] = delimiter ∧ inQuotes = false then
      current :: parseFields delimiter inQuotes [] (v :: rest)
    else parseFields delimiter inQuotes (current ++ [u]) (v :: rest)

def parseRow (line delimiter : Text) : List Text := parseFields delimiter false [] line

/-! ## Rows -/

def protoKey : Text := ascii "__proto__"

/-- `row[key] = value` for a text value; the prototype of an object cannot be set to a text. -/
def assign (row : CsvRow) (key value : Text) : CsvRow :=
  if key = protoKey then row
  else if (row.map Prod.fst).contains key then
    row.map fun entry => if entry.1 = key then (key, value) else entry
  else row ++ [(key, value)]

/-- The loop over the headers; a missing field is the empty text. -/
def fill : CsvRow → List Text → List Text → CsvRow
  | row, [], _ => row
  | row, header :: headers, fields =>
    fill (assign row header (fields.head?.getD [])) headers fields.tail

def full (maxRows : Option JsNumber) (rows : List CsvRow) : Bool :=
  match maxRows with
  | some n => n.truthy && n.leNat rows.length
  | none => false

/-- The loop over the lines behind the headers. -/
def readRows (options : CsvParseOptions) (headers : List Text) :
    List CsvRow → List Text → List CsvRow
  | rows, [] => rows
  | rows, line :: lines =>
    if full options.maxRows rows then rows
    else if options.skipEmpty = true ∧ trim line = [] then readRows options headers rows lines
    else
      readRows options headers (rows ++ [fill [] headers (parseRow line options.delimiter)]) lines

def columnName (i : ℕ) : Text := ascii ("col_" ++ toString i)

def parseContent (content : Text) (options : CsvParseOptions) : List CsvRow :=
  match splitLines content with
  | [] => []
  | first :: rest =>
    if options.hasHeaders then
      readRows options (parseRow first options.delimiter) [] rest
    else
      readRows options
        ((parseRow first options.delimiter).mapIdx fun i _ => columnName i) [] (first :: rest)

/-! ## Serialisation -/

/-- A table: at least one column, distinct nonempty headers, and rows of that width. -/
structure Table where
  headers : List Text
  rows : List (List Text)
  headers_ne_nil : headers ≠ []
  distinct : headers.Nodup
  named : ∀ header ∈ headers, header ≠ []
  width : ∀ row ∈ rows, row.length = headers.length

/-- A field in quotes, with its own quotes doubled. -/
def quoted (field : Text) : Text :=
  quote :: field.flatMap (fun u => if u = quote then [quote, quote] else [u]) ++ [quote]

def serialiseRecord (fields : List Text) : Text := [unit ','].intercalate (fields.map quoted)

/-- Records in the format of RFC 4180; the last one may end with a line break too. -/
def serialise (table : Table) (ending : Bool) : Text :=
  [cr, lf].intercalate ((table.headers :: table.rows).map serialiseRecord) ++
    if ending then [cr, lf] else []

/-- The rows as `parseContent` should return them. -/
def Table.toRows (table : Table) : List CsvRow := table.rows.map (table.headers.zip ·)

end CsvEtl
end Batiste
