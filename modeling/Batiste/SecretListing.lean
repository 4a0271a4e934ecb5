import Batiste.SecretScan

/-! The files that a scan goes over, as git lists them, and the findings that the scan of all
tracked files misses. -/
namespace Batiste
namespace SecretScan

/-- How git prints a path on a line: as it is, or between quotes when a character is unusual. -/
structure GitQuoting where
  unusual : Char → Bool
  quote : Text → Text
  newline_unusual : unusual '\n' = true
  quote_usual : ∀ p : Text, p.any unusual = false → quote p = p
  quote_unusual : ∀ p : Text, p.any unusual = true → ∃ body, quote p = '"' :: body ∧ '\n' ∉ body

theorem GitQuoting.newline_notMem (git : GitQuoting) (p : Text) : '\n' ∉ git.quote p := by
  cases hp : p.any git.unusual with
  | false =>
    rw [git.quote_usual p hp]
    intro hmem
    have hany : p.any git.unusual = true := List.any_eq_true.mpr ⟨'\n', hmem, git.newline_unusual⟩
    exact absurd (hany.symm.trans hp) (by decide)
  | true =>
    obtain ⟨body, hquote, hbody⟩ := git.quote_unusual p hp
    rw [hquote, List.mem_cons, not_or]
    exact ⟨by decide, hbody⟩

theorem GitQuoting.quote_ne_nil (git : GitQuoting) {p : Text} (hp : p ≠ []) : git.quote p ≠ [] := by
  cases hany : p.any git.unusual with
  | false => rwa [git.quote_usual p hany]
  | true =>
    obtain ⟨body, hquote, -⟩ := git.quote_unusual p hany
    rw [hquote]
    exact List.cons_ne_nil '"' body

structure Repository where
  git : GitQuoting
  tracked : List Text
  nil_notMem : [] ∉ tracked
  staged : List Text
  workingTree : Text → Option (List UInt8)
  index : Text → Option (List UInt8)

/-- `git ls-files` -/
def lsFiles (r : Repository) : Text := r.tracked.flatMap fun p => r.git.quote p ++ ['\n']

/-- `git diff --cached --name-only -z` -/
def diffNames (r : Repository) : Text := r.staged.flatMap fun p => p ++ ['\x00']

/-- What `execFileSync` gives; it throws when the output is longer than `maxBuffer` bytes. -/
def output (maxBuffer : ℕ) (out : Text) : Option Text :=
  if (out.map Char.utf8Size).sum ≤ maxBuffer then some out else none

/-- `split` and `filter(Boolean)` -/
def pieces (separator : Char) (out : Text) : List Text :=
  (out.splitOn separator).filter fun piece => !piece.isEmpty

def stagedFiles (r : Repository) : Option (List Text) :=
  (output (2 ^ 20) (diffNames r)).map (pieces '\x00')

def allFiles (r : Repository) : Option (List Text) :=
  (output (2 ^ 26) (lsFiles r)).map (pieces '\n')

inductive Modo
  | staged
  | all
  | files (files : List Text)

def Modo.isStaged : Modo → Bool
  | .staged => true
  | _ => false

def conteudo (r : Repository) (path : Text) : Modo → Option (List UInt8)
  | .staged => r.index path
  | _ => r.workingTree path

def lista (r : Repository) : Modo → Option (List Text)
  | .files files => some files
  | .all => allFiles r
  | .staged => stagedFiles r

structure Scan where
  achados : List Achado
  total : ℕ
  staged : Bool

/-- `none` when it throws. -/
def scan (runtime : Runtime) (r : Repository) (modo : Modo) (allowlist : Allow) : Option Scan := do
  let A ← compilar runtime allowlist
  let files ← lista r modo
  return {
    achados := files.flatMap (doArquivo runtime A fun path => conteudo r path modo)
    total := files.length
    staged := modo.isStaged }

/-- The findings that are reported. -/
def reported (runtime : Runtime) (r : Repository) (modo : Modo) (allowlist : Allow) : List Achado :=
  (scan runtime r modo allowlist).elim [] Scan.achados

/-! ## The list of all files -/

theorem mem_pieces_lsFiles {r : Repository} {f : Text} :
    f ∈ pieces '\n' (lsFiles r) ↔ ∃ p ∈ r.tracked, r.git.quote p = f := by
  have hplain : ∀ line ∈ r.tracked.map r.git.quote, '\n' ∉ line := by
    intro line hline
    obtain ⟨p, -, rfl⟩ := List.mem_map.mp hline
    exact r.git.newline_notMem p
  have hlines : (lsFiles r).splitOn '\n' = r.tracked.map r.git.quote ++ [[]] := by
    rw [← JsString.splitOn_lines hplain List.not_mem_nil, List.append_nil, lsFiles,
      List.flatMap_map]
  rw [pieces, hlines, List.mem_filter, List.mem_append, List.mem_map, List.mem_singleton]
  constructor
  · rintro ⟨hp | rfl, hne⟩
    · exact hp
    · cases hne
  · rintro ⟨p, hp, rfl⟩
    have hne := r.git.quote_ne_nil (p := p) fun hnil => r.nil_notMem (hnil ▸ hp)
    exact ⟨.inl ⟨p, hp, rfl⟩, by simpa using hne⟩

/-! ## What the two modes report -/

variable {runtime : Runtime} {r : Repository} {allowlist : Allow} {A : Compiled}

theorem reported_files (hA : compilar runtime allowlist = some A) (p : Text) :
    reported runtime r (.files [p]) allowlist = doArquivo runtime A r.workingTree p := by
  simp [reported, scan, hA, lista, conteudo]

theorem mem_reported_all (hA : compilar runtime allowlist = some A) {x : Achado} :
    x ∈ reported runtime r .all allowlist ↔ ((lsFiles r).map Char.utf8Size).sum ≤ 2 ^ 26 ∧
      ∃ p ∈ r.tracked, x ∈ doArquivo runtime A r.workingTree (r.git.quote p) := by
  have hreported : reported runtime r .all allowlist =
      (allFiles r).elim [] fun files => files.flatMap (doArquivo runtime A r.workingTree) := by
    rw [reported, scan, hA]
    cases hfiles : allFiles r <;> simp [lista, conteudo, hfiles]
  rw [hreported, allFiles, output]
  split
  · rename_i hsize
    simp only [hsize, true_and, Option.map_some, Option.elim_some, List.mem_flatMap,
      mem_pieces_lsFiles]
    constructor
    · rintro ⟨_, ⟨p, hp, rfl⟩, hx⟩
      exact ⟨p, hp, hx⟩
    · rintro ⟨p, hp, hx⟩
      exact ⟨_, ⟨p, hp, rfl⟩, hx⟩
  · rename_i hsize
    simp only [hsize, false_and, iff_false]
    exact List.not_mem_nil

/-- A finding of a file is reported by the scan of all files only if git lists the file's own
name. -/
theorem listed_of_reported (hA : compilar runtime allowlist = some A) {p : Text} {x : Achado}
    (hx : x ∈ doArquivo runtime A r.workingTree p) (h : x ∈ reported runtime r .all allowlist) :
    ((lsFiles r).map Char.utf8Size).sum ≤ 2 ^ 26 ∧ ∃ q ∈ r.tracked, r.git.quote q = p := by
  obtain ⟨hsize, q, hq, hxq⟩ := (mem_reported_all hA).mp h
  have hname : r.git.quote q = p := (file_of_mem_doArquivo hxq).symm.trans (file_of_mem_doArquivo hx)
  exact ⟨hsize, q, hq, hname⟩

def usualByte (n : ℕ) : Bool := decide (32 ≤ n ∧ n < 127) && n != 34 && n != 92

/-- A byte between the quotes. -/
def quoteByte (n : ℕ) : Text :=
  if usualByte n then [Char.ofNat n]
  else if n = 34 ∨ n = 92 then ['\\', Char.ofNat n]
  else if 7 ≤ n ∧ n ≤ 13 then ['\\', ['a', 'b', 't', 'n', 'v', 'f', 'r'].getD (n - 7) 'r']
  else ['\\', (n / 64).digitChar, (n / 8 % 8).digitChar, (n % 8).digitChar]

/-- Quoting with the option `core.quotePath` at its default. -/
def quotePath : GitQuoting where
  unusual c := !usualByte c.toNat
  quote p :=
    if p.any fun c => !usualByte c.toNat then
      '"' :: ((p.flatMap String.utf8EncodeChar).flatMap (fun b => quoteByte b.toNat) ++ ['"'])
    else p
  newline_unusual := rfl
  quote_usual p hp := by simp [hp]
  quote_unusual p hp := by
    have hbyte : ∀ n : Fin 256, '\n' ∉ quoteByte n := by decide +kernel
    refine ⟨_, by rw [if_pos hp], ?_⟩
    rw [List.mem_append, List.mem_singleton, not_or, List.mem_flatMap]
    refine ⟨?_, by decide⟩
    rintro ⟨b, -, hb⟩
    exact hbyte ⟨b.toNat, b.toNat_lt⟩ hb

example : quotePath.quote ['é', '/', '.', 'e', 'n', 'v'] =
    ['"', '\\', '3', '0', '3', '\\', '2', '5', '1', '/', '.', 'e', 'n', 'v', '"'] := by decide

/-- The secrets of a directory whose name has an accent, under version control. -/
def accented : Repository where
  git := quotePath
  tracked := [['é', '/', '.', 'e', 'n', 'v']]
  nil_notMem := by simp
  staged := []
  workingTree _ := some []
  index _ := some []

end SecretScan
end Batiste
