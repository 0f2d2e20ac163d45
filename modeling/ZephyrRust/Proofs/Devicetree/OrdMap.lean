import ZephyrRust.Devicetree.OrdMap
import ZephyrRust.Proofs.Devicetree.Links
import ZephyrRust.Proofs.Devicetree.Tokens
import ZephyrRust.Proofs.Kconfig

/-!
# `ZephyrRust.Proofs.Devicetree.OrdMap`: the ordinals come from the header

Both patterns of the reader are greedy, and neither the name of a macro nor the path of a node is
marked off in them. A line of the header still has only one way to match. The name of a macro has no
quote and no blank, so the first quote of a line begins its path (`pathLine_inj`), and the first
blank after the macro's name begins its ordinal (`ordLine_inj`). A line with an ordinal has no quote,
so it is not taken for a path.

`HeaderLines.foldlM` is the loop of the reader, by induction over the nodes of the header.
-/

set_option autoImplicit false

namespace ZephyrRust.Devicetree

open ZephyrRust.Lib
open ZephyrRust.Lib.Regex (Matches)
open Kconfig (dot)

namespace OrdMap

/-! ## What the patterns match -/

theorem matches_pathRe {s : List Char} {x : List (List Char)} :
    Matches pathRe s x ↔ ∃ name path, (∀ c ∈ name, dot c = true) ∧ (∀ c ∈ path, dot c = true) ∧
      s = pathLine name path ∧ x = [name, path] := by
  unfold pathRe pathLine
  simp only [Regex.matches_seq, Regex.matches_lit, Regex.matches_group, Regex.matches_star,
    List.append_assoc]
  constructor
  · rintro ⟨t, u, hs, y, z, ⟨ht, hy⟩, ⟨name, v, hu, y₁, z₁, ⟨w, ⟨hname, hw⟩, hy₁⟩,
      ⟨t₂, v₂, hv, y₂, z₂, ⟨ht₂, hy₂⟩, ⟨path, q, hv₂, y₃, z₃, ⟨w₃, ⟨hpath, hw₃⟩, hy₃⟩,
        ⟨hq, hz₃⟩, hz₂⟩, hz₁⟩, hz⟩, hx⟩
    rw [ht, hu, hv, ht₂, hv₂, hq] at hs
    rw [hy, hz, hy₁, hw, hz₁, hy₂, hz₂, hy₃, hw₃, hz₃] at hx
    exact ⟨name, path, hname, hpath, hs, hx⟩
  · rintro ⟨name, path, hname, hpath, hs, hx⟩
    exact ⟨_, _, hs, [], [name, path], ⟨rfl, rfl⟩, ⟨name, _, rfl, [name], [path],
      ⟨[], ⟨hname, rfl⟩, rfl⟩, ⟨_, _, rfl, [], [path], ⟨rfl, rfl⟩, ⟨path, _, rfl, [path], [],
        ⟨[], ⟨hpath, rfl⟩, rfl⟩, ⟨rfl, rfl⟩, rfl⟩, rfl⟩, rfl⟩, hx⟩

theorem matches_ordRe {s : List Char} {x : List (List Char)} :
    Matches ordRe s x ↔ ∃ name text, (∀ c ∈ name, dot c = true) ∧ (∀ c ∈ text, dot c = true) ∧
      s = ordLine name text ∧ x = [name, text] := by
  unfold ordRe ordLine
  simp only [Regex.matches_seq, Regex.matches_lit, Regex.matches_group, Regex.matches_star,
    List.append_assoc]
  constructor
  · rintro ⟨t, u, hs, y, z, ⟨ht, hy⟩, ⟨name, v, hu, y₁, z₁, ⟨w, ⟨hname, hw⟩, hy₁⟩,
      ⟨t₂, text, hv, y₂, z₂, ⟨ht₂, hy₂⟩, ⟨w₂, ⟨htext, hw₂⟩, hz₂⟩, hz₁⟩, hz⟩, hx⟩
    rw [ht, hu, hv, ht₂] at hs
    rw [hy, hz, hy₁, hw, hz₁, hy₂, hz₂, hw₂] at hx
    exact ⟨name, text, hname, htext, hs, hx⟩
  · rintro ⟨name, text, hname, htext, hs, hx⟩
    exact ⟨_, _, hs, [], [name, text], ⟨rfl, rfl⟩, ⟨name, _, rfl, [name], [text],
      ⟨[], ⟨hname, rfl⟩, rfl⟩, ⟨_, text, rfl, [], [text], ⟨rfl, rfl⟩, ⟨[], ⟨htext, rfl⟩, rfl⟩,
        rfl⟩, rfl⟩, hx⟩

/-! ## One way to match a line -/

theorem pathLine_eq (name path : List Char) :
    pathLine name path =
      "#define DT_".toList ++ (((name ++ "_PATH ".toList) ++ '"' :: path) ++ ['"']) := by
  have hquote : "_PATH \"".toList = "_PATH ".toList ++ ['"'] := rfl
  unfold pathLine
  rw [hquote]
  simp only [List.append_assoc, List.cons_append, List.nil_append]

theorem ordLine_eq (name text : List Char) :
    ordLine name text = "#define DT_".toList ++ ((name ++ "_ORD".toList) ++ ' ' :: text) := by
  have hblank : "_ORD ".toList = "_ORD".toList ++ [' '] := rfl
  unfold ordLine
  rw [hblank]
  simp only [List.append_assoc, List.cons_append, List.nil_append]

/-- The first quote is the one before the path. -/
theorem pathLine_inj {name path name' path' : List Char} (hname : '"' ∉ name) (hpath : '"' ∉ path)
    (h : pathLine name path = pathLine name' path') : name' = name ∧ path' = path := by
  have hbefore : '"' ∉ name ++ "_PATH ".toList := by
    rw [List.mem_append]
    intro hmem
    cases hmem with
    | inl h => exact hname h
    | inr h => revert h; decide
  rw [pathLine_eq, pathLine_eq] at h
  have hrest := List.append_cancel_right (List.append_cancel_left h)
  obtain ⟨hnames, -, hpaths⟩ := (List.append_cons_inj_of_notMem hbefore hpath).mp hrest
  exact ⟨(List.append_cancel_right hnames).symm, hpaths.symm⟩

/-- The first blank after the name of the macro is the one before the ordinal. -/
theorem ordLine_inj {name text name' text' : List Char} (hname : ' ' ∉ name) (htext : ' ' ∉ text)
    (h : ordLine name text = ordLine name' text') : name' = name ∧ text' = text := by
  have hbefore : ' ' ∉ name ++ "_ORD".toList := by
    rw [List.mem_append]
    intro hmem
    cases hmem with
    | inl h => exact hname h
    | inr h => revert h; decide
  rw [ordLine_eq, ordLine_eq] at h
  obtain ⟨hnames, -, htexts⟩ :=
    (List.append_cons_inj_of_notMem hbefore htext).mp (List.append_cancel_left h)
  exact ⟨(List.append_cancel_right hnames).symm, htexts.symm⟩

theorem isNameChar_ne {c d : Char} (hc : isNameChar c = true) (hd : isNameChar d = false) :
    c ≠ d := by
  intro he
  rw [he, hd] at hc
  cases hc

theorem not_mem_name {name : List Char} {d : Char} (hname : ∀ c ∈ name, isNameChar c = true)
    (hd : isNameChar d = false) : d ∉ name :=
  fun hmem => isNameChar_ne (hname d hmem) hd rfl

theorem dot_of_isNameChar {c : Char} (hc : isNameChar c = true) : dot c = true :=
  decide_eq_true (isNameChar_ne hc (by decide))

theorem isNameChar_of_isDigit {c : Char} (hc : Grammar.isDigit c = true) : isNameChar c = true := by
  rw [isNameChar, hc, Bool.or_true, Bool.true_or]

theorem captures_pathLine {name path : List Char} (hname : ∀ c ∈ name, isNameChar c = true)
    (hpath : ∀ c ∈ path, c ≠ '"' ∧ c ≠ '\n') :
    pathRe.captures (pathLine name path) = some [name, path] := by
  refine Regex.captures_eq_some ?_ ?_
  · exact matches_pathRe.mpr ⟨name, path, fun c hc => dot_of_isNameChar (hname c hc),
      fun c hc => decide_eq_true (hpath c hc).2, rfl, rfl⟩
  · intro y hy
    obtain ⟨name', path', -, -, hs, hx⟩ := matches_pathRe.mp hy
    obtain ⟨hn, hp⟩ := pathLine_inj (not_mem_name hname (by decide))
      (fun hmem => (hpath _ hmem).1 rfl) hs
    rw [hx, hn, hp]

/-- A line with an ordinal is not taken for a path: it has no quote. -/
theorem captures_ordLine {name digits : List Char} (hname : ∀ c ∈ name, isNameChar c = true)
    (hdigits : ∀ c ∈ digits, Grammar.isDigit c = true) :
    pathRe.captures (ordLine name digits) = none ∧
      ordRe.captures (ordLine name digits) = some [name, digits] := by
  have hdigits' : ∀ c ∈ digits, isNameChar c = true :=
    fun c hc => isNameChar_of_isDigit (hdigits c hc)
  constructor
  · refine Regex.captures_eq_none fun y hy => ?_
    obtain ⟨name', path', -, -, hs, -⟩ := matches_pathRe.mp hy
    have hquote : '"' ∈ ordLine name digits := by
      rw [hs]
      exact List.mem_append_right _ (List.mem_singleton_self _)
    unfold ordLine at hquote
    simp only [List.mem_append] at hquote
    obtain ((hmem | hmem) | hmem) | hmem := hquote
    · revert hmem; decide
    · exact not_mem_name hname (by decide) hmem
    · revert hmem; decide
    · exact not_mem_name hdigits' (by decide) hmem
  · refine Regex.captures_eq_some ?_ ?_
    · exact matches_ordRe.mpr ⟨name, digits, fun c hc => dot_of_isNameChar (hname c hc),
        fun c hc => dot_of_isNameChar (hdigits' c hc), rfl, rfl⟩
    · intro y hy
      obtain ⟨name', text, -, -, hs, hx⟩ := matches_ordRe.mp hy
      obtain ⟨hn, ht⟩ := ordLine_inj (not_mem_name hname (by decide))
        (not_mem_name hdigits' (by decide)) hs
      rw [hx, hn, ht]

theorem captures_other {line : List Char} (h : Other line) :
    pathRe.captures line = none ∧ ordRe.captures line = none := by
  constructor
  · refine Regex.captures_eq_none fun y hy => ?_
    obtain ⟨name, path, -, -, hs, -⟩ := matches_pathRe.mp hy
    unfold pathLine at hs
    rw [List.append_assoc] at hs
    have hinfix : "_PATH \"".toList <:+: line := ⟨_, _, hs.symm⟩
    rw [List.append_assoc, List.append_assoc] at hs
    exact (h ⟨_, hs.symm⟩).1 hinfix
  · refine Regex.captures_eq_none fun y hy => ?_
    obtain ⟨name, text, -, -, hs, -⟩ := matches_ordRe.mp hy
    unfold ordLine at hs
    have hinfix : "_ORD ".toList <:+: line := ⟨_, _, hs.symm⟩
    rw [List.append_assoc, List.append_assoc] at hs
    exact (h ⟨_, hs.symm⟩).2 hinfix

/-! ## The loop -/

variable {size : Nat}

theorem line_path {name path : List Char} (hname : ∀ c ∈ name, isNameChar c = true)
    (hpath : ∀ c ∈ path, c ≠ '"' ∧ c ≠ '\n') (s : Scan) :
    Scan.line size s (some (pathLine name path)) = .ok ⟨name, path, s.result⟩ := by
  simp only [Scan.line, captures_pathLine hname hpath]

theorem line_ord {name digits : List Char} (hname : ∀ c ∈ name, isNameChar c = true)
    (hne : digits ≠ []) (hdigits : ∀ c ∈ digits, Grammar.isDigit c = true)
    (hsize : numeral 10 digits < size) {s : Scan} (hs : s.cName = name) :
    Scan.line size s (some (ordLine name digits)) = .ok { s with
      result := Function.update s.result (String.ofList s.dtPath) (some (numeral 10 digits)) } := by
  have hnumber : usizeFromStr size digits = .ok (numeral 10 digits) := by
    have hplus : digits.head? ≠ some '+' := by
      intro hhead
      have hdigit := hdigits '+' (List.mem_of_head? hhead)
      revert hdigit
      decide
    rw [usizeFromStr, if_neg hplus, fromStrRadix_numeral (by decide) hne
      (fun c hc => toDigit_digit (hdigits c hc)) hsize]
  obtain ⟨hpath, hord⟩ := captures_ordLine hname hdigits
  simp only [Scan.line, hpath, hord, hnumber]
  exact if_pos hs.symm

theorem line_other {line : List Char} (h : Other line) (s : Scan) :
    Scan.line size s (some line) = .ok s := by
  simp only [Scan.line, captures_other h]

/-- The loop goes on after a line that it can read. -/
theorem foldlM_line {s s' : Scan} {l : List Char} (h : Scan.line size s (some l) = .ok s')
    (ls : List (List Char)) :
    ((l :: ls).map some).foldlM (Scan.line size) s =
      (ls.map some).foldlM (Scan.line size) s' := by
  rw [List.map_cons, List.foldlM_cons, h]
  rfl

theorem foldlM_others {ls : List (List Char)} (h : ∀ l ∈ ls, Other l) (s : Scan)
    (rest : List (List Char)) :
    ((ls ++ rest).map some).foldlM (Scan.line size) s =
      (rest.map some).foldlM (Scan.line size) s := by
  induction ls with
  | nil => rfl
  | cons l ls ih =>
    obtain ⟨hl, hls⟩ := List.forall_mem_cons.mp h
    rw [List.cons_append, foldlM_line (line_other hl s)]
    exact ih hls

theorem ordinal_cons (node : String × Nat) (nodes : List (String × Nat)) (path : String) :
    ordinal (node :: nodes) path =
      (ordinal nodes path).or (if node.1 = path then some node.2 else none) := by
  unfold ordinal
  rw [List.filter_cons]
  by_cases hpath : node.1 = path
  · rw [if_pos (decide_eq_true hpath), if_pos hpath, List.getLast?_cons]
    cases (nodes.filter fun n => n.1 = path).getLast? <;> rfl
  · rw [if_neg (by simpa using hpath), if_neg hpath, Option.or_none]

/-- The loop over the lines of a header. The paths of the header get their ordinals, and the other
ones keep what they have. -/
theorem HeaderLines.foldlM {nodes : List (String × Nat)} {ls : List (List Char)}
    (h : HeaderLines nodes ls) (hsize : ∀ n ∈ nodes, n.2 < size) (s : Scan) :
    ∃ s', (ls.map some).foldlM (Scan.line size) s = .ok s' ∧
      ∀ path, s'.result path = (ordinal nodes path).or (s.result path) := by
  induction h generalizing s with
  | nil => exact ⟨s, rfl, fun path => rfl⟩
  | other hline _ ih =>
    obtain ⟨s', hfold, hresult⟩ := ih hsize s
    exact ⟨s', (foldlM_line (line_other hline s) _).trans hfold, hresult⟩
  | @node nodes name path digits between rest hname hpath hbetween hne hdigits _ ih =>
    obtain ⟨hnode, hnodes⟩ := List.forall_mem_cons.mp hsize
    obtain ⟨s', hfold, hresult⟩ := ih hnodes ⟨name, path, Function.update s.result
      (String.ofList path) (some (numeral 10 digits))⟩
    have hord : Scan.line size ⟨name, path, s.result⟩ (some (ordLine name digits)) = .ok _ :=
      line_ord hname hne hdigits hnode rfl
    refine ⟨s', ?_, fun p => ?_⟩
    · rw [foldlM_line (line_path hname hpath s), foldlM_others hbetween, foldlM_line hord]
      exact hfold
    · rw [hresult, ordinal_cons, Option.or_assoc]
      show (ordinal nodes p).or (Function.update s.result (String.ofList path) _ p) = _
      rw [Function.update_apply]
      by_cases hp : p = String.ofList path
      · rw [if_pos hp, if_pos hp.symm]
        rfl
      · rw [if_neg hp, if_neg (Ne.symm hp), Option.none_or]

/-! ## The text -/

/-- The lines of a text, each with its newline. -/
theorem lines_flatMap {ls : List (List Char)}
    (h : ∀ l ∈ ls, '\n' ∉ l ∧ l.getLast? ≠ some '\r') :
    Kconfig.lines (ls.flatMap fun l => l ++ ['\n']) = ls := by
  induction ls with
  | nil => rfl
  | cons l ls ih =>
    obtain ⟨⟨hnewline, hlast⟩, hls⟩ := List.forall_mem_cons.mp h
    have hchomp : Kconfig.chomp l = l := if_neg hlast
    rw [List.flatMap_cons, List.append_assoc, List.singleton_append, Kconfig.lines,
      Kconfig.linesFrom_line hnewline, List.nil_append, hchomp]
    exact congrArg (List.cons l) (ih hls)

/-- Reading the header gives each path its ordinal. A devicetree that is read with this map has, at
the end of every way down from the root, a node with the ordinal of the path that is this way. -/
theorem header_ordinals {nodes : List (String × Nat)} {text : List Char}
    (h : HeaderText nodes text) (hsize : ∀ n ∈ nodes, n.2 < size) :
    ∃ ords, OrdMap.new size (Kconfig.readLines text) = .ok ords ∧ ords = ordinal nodes ∧
      ∀ {depth : Nat} {dts : List Char} {dt : DeviceTree},
        DeviceTree.new depth dts ords = .ok dt →
          ∀ {names : List String} {n : Node}, Under dt.root names n →
            ordinal nodes (joinPath names) = some n.ord := by
  obtain ⟨ls, hls, hends, rfl⟩ := h
  obtain ⟨s, hfold, hresult⟩ := hls.foldlM hsize ⟨[], [], fun _ => none⟩
  refine ⟨s.result, ?_, ?_, ?_⟩
  · rw [OrdMap.new, Kconfig.readLines, lines_flatMap hends, hfold]
    rfl
  · funext path
    rw [hresult path, Option.or_none]
  · intro depth dts dt hnew names n hu
    obtain ⟨hcoherent, hroute⟩ := (new_valid hnew).coherent hu
    have hord := hcoherent.ord
    rw [hcoherent.path, hroute, hresult, Option.or_none] at hord
    exact hord

/-- A header with one node, as text. -/
theorem header_ordinals_root :
    ∃ ords, OrdMap.new UInt64.size (Kconfig.readLines
        ("/* Node */\n#define DT_N_PATH \"/\"\n#define DT_N_ORD 0\n" ++
          "#define DT_N_ORD_STR_SORTABLE 00000\n").toList) = .ok ords ∧ ords "/" = some 0 := by
  have hcomment : Other "/* Node */".toList := fun _ => by decide +kernel
  have hsortable : Other "#define DT_N_ORD_STR_SORTABLE 00000".toList := fun _ => by decide +kernel
  have hname : ∀ c ∈ ['N'], isNameChar c = true :=
    List.all_eq_true.mp (by decide +kernel)
  have hpath : ∀ c ∈ ['/'], c ≠ '"' ∧ c ≠ '\n' := List.forall_mem_singleton.mpr (by decide)
  have hdigits : ∀ c ∈ ['0'], Grammar.isDigit c = true :=
    List.all_eq_true.mp (by decide +kernel)
  have hnode : HeaderLines [(String.ofList ['/'], 0)] _ :=
    .node hname hpath (List.forall_mem_nil _) (List.cons_ne_nil _ _) hdigits (.other hsortable .nil)
  have htext : HeaderText [(String.ofList ['/'], 0)]
      ("/* Node */\n#define DT_N_PATH \"/\"\n#define DT_N_ORD 0\n" ++
        "#define DT_N_ORD_STR_SORTABLE 00000\n").toList :=
    ⟨_, .other hcomment hnode, by decide +kernel, by decide +kernel⟩
  have hsize : ∀ n ∈ [(String.ofList ['/'], 0)], n.2 < UInt64.size :=
    List.forall_mem_singleton.mpr (Nat.zero_lt_succ _)
  obtain ⟨ords, hnew, hords, -⟩ := header_ordinals htext hsize
  exact ⟨ords, hnew, by rw [hords]; decide +kernel⟩

end OrdMap

end ZephyrRust.Devicetree
