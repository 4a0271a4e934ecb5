import Batiste.Scrub

/-! What scrubbing leaves of a text: which words a turn can make, and when a second pass finds
nothing more. -/
namespace Batiste
namespace Scrub

open SpanRegex GlobalReplace

theorem turns_eq : turns =
    [⟨anthropicKey, "[REDACTED:anthropic-key]".toList⟩, ⟨openaiKey, "[REDACTED:openai-key]".toList⟩,
      ⟨googleApiKey, "[REDACTED:google-api-key]".toList⟩,
      ⟨githubToken, "[REDACTED:github-token]".toList⟩, ⟨awsAccessKey, "[REDACTED:aws-key]".toList⟩,
      ⟨slackToken, "[REDACTED:slack-token]".toList⟩, ⟨bearerHeader, "Bearer [REDACTED]".toList⟩,
      ⟨jwt, "[REDACTED:jwt]".toList⟩, ⟨privatePath, "[REDACTED:private-path]".toList⟩,
      ⟨pemBlock, "[REDACTED:private-key-block]".toList⟩] := rfl

/-- The replacements as characters. -/
theorem turns_chars : turns =
    [⟨anthropicKey,
        ['[', 'R', 'E', 'D', 'A', 'C', 'T', 'E', 'D', ':', 'a', 'n', 't', 'h', 'r', 'o', 'p', 'i',
          'c', '-', 'k', 'e', 'y', ']']⟩,
      ⟨openaiKey,
        ['[', 'R', 'E', 'D', 'A', 'C', 'T', 'E', 'D', ':', 'o', 'p', 'e', 'n', 'a', 'i', '-', 'k',
          'e', 'y', ']']⟩,
      ⟨googleApiKey,
        ['[', 'R', 'E', 'D', 'A', 'C', 'T', 'E', 'D', ':', 'g', 'o', 'o', 'g', 'l', 'e', '-', 'a',
          'p', 'i', '-', 'k', 'e', 'y', ']']⟩,
      ⟨githubToken,
        ['[', 'R', 'E', 'D', 'A', 'C', 'T', 'E', 'D', ':', 'g', 'i', 't', 'h', 'u', 'b', '-', 't',
          'o', 'k', 'e', 'n', ']']⟩,
      ⟨awsAccessKey,
        ['[', 'R', 'E', 'D', 'A', 'C', 'T', 'E', 'D', ':', 'a', 'w', 's', '-', 'k', 'e', 'y', ']']⟩,
      ⟨slackToken,
        ['[', 'R', 'E', 'D', 'A', 'C', 'T', 'E', 'D', ':', 's', 'l', 'a', 'c', 'k', '-', 't', 'o',
          'k', 'e', 'n', ']']⟩,
      ⟨bearerHeader,
        ['B', 'e', 'a', 'r', 'e', 'r', ' ', '[', 'R', 'E', 'D', 'A', 'C', 'T', 'E', 'D', ']']⟩,
      ⟨jwt,
        ['[', 'R', 'E', 'D', 'A', 'C', 'T', 'E', 'D', ':', 'j', 'w', 't', ']']⟩,
      ⟨privatePath,
        ['[', 'R', 'E', 'D', 'A', 'C', 'T', 'E', 'D', ':', 'p', 'r', 'i', 'v', 'a', 't', 'e', '-',
          'p', 'a', 't', 'h', ']']⟩,
      ⟨pemBlock,
        ['[', 'R', 'E', 'D', 'A', 'C', 'T', 'E', 'D', ':', 'p', 'r', 'i', 'v', 'a', 't', 'e', '-',
          'k', 'e', 'y', '-', 'b', 'l', 'o', 'c', 'k', ']']⟩] := by
  rw [turns_eq]
  rw [@JsString.toList_eq "[REDACTED:anthropic-key]" _ rfl,
    @JsString.toList_eq "[REDACTED:openai-key]" _ rfl,
    @JsString.toList_eq "[REDACTED:google-api-key]" _ rfl,
    @JsString.toList_eq "[REDACTED:github-token]" _ rfl,
    @JsString.toList_eq "[REDACTED:aws-key]" _ rfl,
    @JsString.toList_eq "[REDACTED:slack-token]" _ rfl,
    @JsString.toList_eq "Bearer [REDACTED]" _ rfl,
    @JsString.toList_eq "[REDACTED:jwt]" _ rfl,
    @JsString.toList_eq "[REDACTED:private-path]" _ rfl,
    @JsString.toList_eq "[REDACTED:private-key-block]" _ rfl]

/-- What every match of a turn has in common with its replacement. -/
def common (t : Turn) : List Char :=
  if begins 'B' t.rule.body then "Bearer".toList else []

/-- The rules without edges whose words hold no bracket. -/
def tokenRules : List Rule :=
  [anthropicKey, openaiKey, googleApiKey, githubToken, slackToken, bearerHeader]

theorem turns_rules : turns.map Turn.rule = rules := rfl

theorem tokenRules_sublist : tokenRules.Sublist rules :=
  .cons_cons _ (.cons_cons _ (.cons_cons _ (.cons_cons _ (.cons _ (.cons_cons _ (.cons_cons _ (List.nil_sublist _)))))))

/-- What is checked of the replacements: they bring no word of a rule, do not open or close one, end
in no word character and hold no `K`. -/
theorem replacements_checked :
    (tokenRules.all fun r => turns.all fun t =>
      quiet r.body t.replacement && enclosed r t.replacement (common t)) = true ∧
    (turns.all fun t =>
      quiet awsAccessKey.body t.replacement && enclosed awsAccessKey t.replacement []) = true ∧
    ((turns.drop 7).all fun t =>
      quiet jwt.body t.replacement && enclosed jwt t.replacement []) = true ∧
    (turns.all fun t => !wordy t.replacement.getLast?) = true ∧
    (turns.all fun t => quiet privatePath.body t.replacement) = true ∧
    (turns.all fun t => decide ('K' ∉ t.replacement)) = true := by
  rw [turns_chars]
  decide +kernel

/-- No turn makes a word of the rule from a text that has none where it is kept. -/
def Keeps (r : Rule) (t : Turn) : Prop :=
  ∀ xs, Spared id r (pieces id t.rule xs) → Free id r (turn t xs)

theorem common_prefix {t : Turn} (ht : t ∈ turns) {w : List Char} (hw : Lang t.rule.body w) :
    common t <+: w := by
  by_cases hb : begins 'B' t.rule.body = true
  · have hbearer : t.rule = bearerHeader := by
      rw [turns_eq] at ht
      simp only [List.mem_cons, List.not_mem_nil, or_false] at ht
      obtain rfl | rfl | rfl | rfl | rfl | rfl | rfl | rfl | rfl | rfl := ht <;>
        first | rfl | exact absurd hb (by decide)
    rw [hbearer] at hw
    obtain ⟨u, v, rfl, hu, -⟩ := hw
    rw [common, if_pos hb, ← lang_lit.mp hu]
    exact List.prefix_append u v
  · rw [common, if_neg hb]
    exact List.nil_prefix

theorem keeps_token {r : Rule} (hr : r ∈ tokenRules) {t : Turn} (ht : t ∈ turns) : Keeps r t := by
  have hcheck := List.all_eq_true.mp (List.all_eq_true.mp replacements_checked.1 r hr) t ht
  rw [Bool.and_eq_true] at hcheck
  have hedges : r.edges = false := by
    simp only [tokenRules, List.mem_cons, List.not_mem_nil, or_false] at hr
    obtain rfl | rfl | rfl | rfl | rfl | rfl := hr <;> rfl
  have henc : enclosed r (t.replacement.map id) (common t) = true := by simpa using hcheck.2
  intro xs hspared
  refine free_target_of_plain hedges (by simpa using hcheck.1) henc ?_ hspared
  intro old hold
  obtain ⟨ps, qs, hps⟩ := List.append_of_mem hold
  rw [List.map_id]
  exact common_prefix ht (by simpa using (stands_at_hit hps).1)

/-! ## The two rules with edges -/

/-- The turns that leave to their neighbours the edges that they had. -/
def framedTurns : List Turn :=
  [⟨awsAccessKey, "[REDACTED:aws-key]".toList⟩, ⟨bearerHeader, "Bearer [REDACTED]".toList⟩,
    ⟨jwt, "[REDACTED:jwt]".toList⟩, ⟨privatePath, "[REDACTED:private-path]".toList⟩,
    ⟨pemBlock, "[REDACTED:private-key-block]".toList⟩]

theorem aws_enclosed : (turns.all fun t =>
    quiet awsAccessKey.body t.replacement && enclosed awsAccessKey t.replacement []) = true :=
  replacements_checked.2.1

theorem jwt_enclosed : ((turns.drop 7).all fun t =>
    quiet jwt.body t.replacement && enclosed jwt t.replacement []) = true :=
  replacements_checked.2.2.1

theorem closes : (turns.all fun t => !wordy t.replacement.getLast?) = true :=
  replacements_checked.2.2.2.1

variable {α : Type*} {char : α → Char}

theorem begins_aws {c : Char} (h : begins c awsAccessKey.body = true) : c = 'A' := by
  simpa [awsAccessKey, text, lit, begins, least] using h

theorem begins_jwt {c : Char} (h : begins c jwt.body = true) : c = 'e' := by
  simpa [jwt, text, lit, begins, least] using h

theorem begins_bearer {c : Char} (h : begins c bearerHeader.body = true) : c = 'B' := by
  simpa [bearerHeader, text, lit, begins, least] using h

theorem begins_privatePath {c : Char} (h : begins c privatePath.body = true) : c = '/' := by
  simpa [privatePath, text, lit, begins, least] using h

theorem begins_pemBlock {c : Char} (h : begins c pemBlock.body = true) : c = '-' := by
  simpa [pemBlock, text, lit, begins, least] using h

theorem ends_pemBlock {c : Char} (h : ends c pemBlock.body = true) : c = '-' := by
  simpa [pemBlock, pemEnd, text, lit, ends, least] using h

theorem pathChar_of_alphanum {c : Char} (h : c.isAlphanum = true) : pathChar c = true := by
  have hrange := JsString.alphanum_range h
  have hspace : JsString.isSpace c = false := JsString.isSpace_of_alphanum h
  have hquote : ∀ d : Char, d.toNat < 48 → c ≠ d := by
    rintro d hd rfl
    omega
  rw [pathChar, hspace, beq_eq_false_iff_ne.mpr (hquote '\'' (by decide)),
    beq_eq_false_iff_ne.mpr (hquote '"' (by decide))]
  rfl

theorem framed {t : Turn} (ht : t ∈ framedTurns) {rep : List α} (hrep : rep.map char = t.replacement)
    (ys : List α) : Leads char rep (pieces char t.rule ys) ∧ Trails char (pieces char t.rule ys) := by
  simp only [framedTurns, List.mem_cons, List.not_mem_nil, or_false] at ht
  obtain rfl | rfl | rfl | rfl | rfl := ht
  · refine ⟨leads_of_edges rfl (fun c hc => ?_) (by rw [hrep]; rfl) ys, trails_of_edges rfl ys⟩
    rw [begins_aws hc]
    rfl
  · refine ⟨leads_of_begins (fun c hc => ?_) ys, trails_of_trailing rfl rfl (fun c hc => ?_) ys⟩
    · rw [begins_bearer hc, hrep]
      rfl
    · rw [tokenChar, hc]
      rfl
  · refine ⟨leads_of_edges rfl (fun c hc => ?_) (by rw [hrep]; rfl) ys, trails_of_edges rfl ys⟩
    rw [begins_jwt hc]
    rfl
  · refine ⟨leads_of_begins (fun c hc => ?_) ys,
      trails_of_trailing rfl rfl (fun c hc => pathChar_of_alphanum hc) ys⟩
    rw [begins_privatePath hc, hrep]
    rfl
  · refine ⟨leads_of_begins (fun c hc => ?_) ys, trails_of_ends (fun c hc => ?_) ys⟩
    · rw [begins_pemBlock hc, hrep]
      rfl
    · rw [ends_pemBlock hc]
      rfl

theorem framed_sublist : framedTurns.Sublist turns := by
  rw [turns_eq]
  exact .cons _ (.cons _ (.cons _ (.cons _ (.cons_cons _ (.cons _ (.cons_cons _ (.cons_cons _
    (.cons_cons _ (.cons_cons _ .slnil)))))))))

theorem framed_mem {t : Turn} (ht : t ∈ framedTurns) : t ∈ turns := framed_sublist.subset ht

theorem replacement_ne_nil {t : Turn} (ht : t ∈ turns) : t.replacement ≠ [] := by
  rw [turns_chars] at ht
  rintro hnil
  simp only [List.mem_cons, List.not_mem_nil, or_false] at ht
  obtain rfl | rfl | rfl | rfl | rfl | rfl | rfl | rfl | rfl | rfl := ht <;> cases hnil

theorem keeps_of_edges {r : Rule} (halnum : ∀ c, begins c r.body = true → c.isAlphanum = true)
    {t : Turn} (ht : t ∈ framedTurns)
    (hcheck : (quiet r.body t.replacement && enclosed r t.replacement []) = true) : Keeps r t := by
  have hid : t.replacement.map id = t.replacement := List.map_id _
  rw [Bool.and_eq_true] at hcheck
  intro xs hspared
  obtain ⟨hleads, htrails⟩ := framed ht hid xs
  refine free_target_of_edges halnum (by rw [hid]; exact hcheck.1) (by rw [hid]; exact hcheck.2)
    hleads htrails (replacement_ne_nil (framed_mem ht)) ?_ hspared
  rw [hid]
  simpa using List.all_eq_true.mp closes t (framed_mem ht)

theorem keeps_aws {t : Turn} (ht : t ∈ framedTurns) : Keeps awsAccessKey t :=
  keeps_of_edges (fun c hc => by rw [begins_aws hc]; rfl) ht
    (List.all_eq_true.mp aws_enclosed t (framed_mem ht))

theorem keeps_jwt {t : Turn} (ht : t ∈ framedTurns.drop 2) : Keeps jwt t :=
  keeps_of_edges (fun c hc => by rw [begins_jwt hc]; rfl) (List.mem_of_mem_drop ht)
    (List.all_eq_true.mp jwt_enclosed t ht)

/-! ## Paths -/

theorem path_quiet : (turns.all fun t => quiet privatePath.body t.replacement) = true :=
  replacements_checked.2.2.2.2.1

theorem head_bracket {t : Turn} (ht : t ∈ framedTurns.drop 3) :
    ∃ rep, t.replacement = '[' :: rep := by
  simp only [framedTurns, List.drop_succ_cons, List.drop_zero, List.mem_cons, List.not_mem_nil,
    or_false] at ht
  obtain rfl | rfl := ht <;> exact ⟨_, rfl⟩

theorem pathChar_of_begins {t : Turn} (ht : t ∈ framedTurns.drop 3) {c : Char}
    (h : begins c t.rule.body = true) : pathChar c = true := by
  simp only [framedTurns, List.drop_succ_cons, List.drop_zero, List.mem_cons, List.not_mem_nil,
    or_false] at ht
  obtain rfl | rfl := ht
  · rw [begins_privatePath h]
    decide
  · rw [begins_pemBlock h]
    decide

theorem lang_privatePath {w : List Char} :
    Lang privatePath.body w ↔
      ∃ u, w = "/private/".toList ++ u ∧ (∀ c ∈ u, pathChar c = true) ∧ 1 ≤ u.length := by
  constructor
  · rintro ⟨u, v, rfl, hu, hv, hlen, -⟩
    exact ⟨v, by rw [lang_lit.mp hu], hv, hlen⟩
  · rintro ⟨u, rfl, hu, hlen⟩
    exact ⟨_, u, rfl, lang_lit.mpr rfl, hu, hlen, by simp⟩

theorem behind_of_not_mem {l₁ l₂ y z : List Char} {c : Char} (h : l₁ ++ l₂ = y ++ c :: z)
    (hc : c ∉ l₁) : ∃ a, y = l₁ ++ a ∧ l₂ = a ++ c :: z := by
  obtain ⟨a, hy, hl₂⟩ | ⟨b, hl₁, hz⟩ := List.append_eq_append_iff.mp h
  · exact ⟨a, hy, hl₂⟩
  · cases b with
    | nil => exact ⟨[], by rw [hl₁, List.append_nil, List.append_nil], hz.symm⟩
    | cons e b =>
      obtain ⟨rfl, -⟩ := List.cons.inj hz
      exact absurd (by simp [hl₁]) hc

theorem before_of_not_mem {l₁ l₂ y z : List Char} {c : Char} (h : l₁ ++ l₂ = y ++ c :: z)
    (hc : c ∉ l₂) : ∃ b, l₁ = y ++ c :: b ∧ z = b ++ l₂ := by
  obtain ⟨a, hy, hl₂⟩ | ⟨b, hl₁, hz⟩ := List.append_eq_append_iff.mp h
  · exact absurd (by simp [hl₂]) hc
  · cases b with
    | nil =>
      rw [List.nil_append] at hz
      exact absurd (hz ▸ List.mem_cons_self) hc
    | cons e b =>
      obtain ⟨rfl, htail⟩ := List.cons.inj hz
      exact ⟨b, hl₁, htail⟩

/-- A path can end with another character where it goes on with a bracket. -/
theorem privatePath_turn_off {y z : List Char} {d : Char} (h : Lang privatePath.body (y ++ '[' :: z))
    (hd : pathChar d = true) : Lang privatePath.body (y ++ [d]) := by
  obtain ⟨u, hu, hchars, -⟩ := lang_privatePath.mp h
  obtain ⟨c, rfl, rfl⟩ := behind_of_not_mem hu.symm (by decide)
  refine lang_privatePath.mpr ⟨c ++ [d], List.append_assoc _ _ _, fun e he => ?_, by simp⟩
  obtain he | he := List.mem_append.mp he
  · exact hchars e (List.mem_append_left _ he)
  · rwa [List.mem_singleton.mp he]

theorem keeps_privatePath {t : Turn} (ht : t ∈ framedTurns.drop 3) : Keeps privatePath t := by
  have hmem : t ∈ turns := framed_mem (List.mem_of_mem_drop ht)
  intro xs hspared x w v heq hw
  rw [List.map_id, List.map_id, List.map_id] at hw
  obtain ⟨ps₁, a, ps₂, hps, rfl, hy⟩ | ⟨s, rest, hs, hrep, hy⟩ :=
    cut_target heq (List.append_ne_nil_of_left_ne_nil hw.ne_nil v)
  · have hkept : w ++ v = target t.replacement (.kept a :: ps₂) := hy
    obtain ⟨qs, hqs, -⟩ | ⟨y, z, old, qs, rfl, hz, hqs, hv⟩ := prefix_target hkept
    · refine hspared ps₁ a ps₂ w (source qs) hps ?_ (by simpa using hw.of_plain rfl)
      rw [← source_kept, hqs, source_append, source_map_kept]
    · -- the path goes on in the replacement, and it went on in the stretch that was replaced
      obtain ⟨rep, hbracket⟩ := head_bracket ht
      obtain ⟨c, z, rfl⟩ := List.exists_cons_of_ne_nil hz
      rw [hbracket] at hv
      obtain ⟨rfl, -⟩ := List.cons.inj hv
      have hpieces := hps
      rw [hqs, ← List.append_assoc] at hpieces
      have hold := stands_at_hit hpieces
      simp only [List.map_id] at hold
      obtain ⟨d, old, rfl⟩ := List.exists_cons_of_ne_nil hold.ne_nil
      have hd := pathChar_of_begins ht (begins_of_head hold.1)
      refine hspared ps₁ a ps₂ (y ++ [d]) (old ++ source qs) hps ?_ ?_
      · rw [← source_kept, hqs, source_append, source_map_kept, source_hit]
        simp
      · refine ⟨?_, fun hedges => (by cases hedges)⟩
        rw [List.map_id]
        exact privatePath_turn_off hw.1 hd
  · exact quiet_spec (List.all_eq_true.mp path_quiet t hmem) hs hrep hw.ne_nil hy hw.1

/-! ## Blocks -/

def pemReplacement : List Char := "[REDACTED:private-key-block]".toList

theorem lang_pemEnd {w : List Char} (h : Lang pemEnd w) :
    ∃ u, w = u ++ "PRIVATE KEY-----".toList ∧ ∀ c ∈ u, c ≠ '-' := by
  obtain ⟨u, v, rfl, hu, hv⟩ := h
  exact ⟨u, by rw [lang_lit.mp hv], fun c hc => bne_iff_ne.mp (hu.1 c hc)⟩

/-- The line of a block does not run into the replacement: its first dash would follow a small
letter. -/
theorem line_not_into {start y z v t w : List Char} (hstart : '[' ∉ start) (hw : Lang pemEnd w)
    (hz : z ≠ []) (hcut : start ++ w = y ++ z) (hv : z ++ v = pemReplacement ++ t) : False := by
  obtain ⟨u, rfl, hu⟩ := lang_pemEnd hw
  obtain ⟨c, z, rfl⟩ := List.exists_cons_of_ne_nil hz
  obtain rfl : c = '[' := (List.cons.inj hv).1
  obtain ⟨a, rfl, hrest⟩ := behind_of_not_mem hcut hstart
  obtain ⟨b, rfl, rfl⟩ := before_of_not_mem hrest (by decide)
  have hdash : ('[' :: b ++ "PRIVATE KEY".toList) ++ ("-----".toList ++ v) = pemReplacement ++ t := by
    rw [← hv]
    simp
  have hclear : ∀ c ∈ '[' :: b ++ "PRIVATE KEY".toList, (c != '-') = true := by
    intro c hc
    rw [bne_iff_ne]
    obtain hc | hc := List.mem_append.mp hc
    · exact hu c (List.mem_append_right a hc)
    · rintro rfl
      exact absurd hc (by decide)
  have hrun := congrArg (List.takeWhile fun c => c != '-') hdash
  rw [List.takeWhile_append_of_pos hclear] at hrun
  have hsame : '[' :: b ++ "PRIVATE KEY".toList = "[REDACTED:private".toList :=
    (List.append_nil _).symm.trans hrun
  have hlast := congrArg List.getLast? hsame
  rw [List.getLast?_append_of_ne_nil _ (by decide)] at hlast
  exact absurd hlast (by decide)

theorem line_not_inside {s t v : List Char} (hs : s ≠ []) (hrep : s <:+ pemReplacement)
    (h : '-' :: '-' :: v = s ++ t) : False := by
  have hcheck : (pemReplacement.tails.all fun s =>
      s.isEmpty || s.head? != some '-' || s.tail.head?.any fun c => c != '-') = true := by decide
  have hsuffix := List.all_eq_true.mp hcheck s ((List.mem_tails _ _).mpr hrep)
  obtain ⟨c, s, rfl⟩ := List.exists_cons_of_ne_nil hs
  obtain ⟨rfl, hrest⟩ := List.cons.inj h
  cases s with
  | nil => cases hsuffix
  | cons d s =>
    obtain ⟨rfl, -⟩ := List.cons.inj hrest
    cases hsuffix

theorem lang_pemBlock {w : List Char} :
    Lang pemBlock.body w ↔ ∃ e₁ m e₂, Lang pemEnd e₁ ∧ Lang pemEnd e₂ ∧
      w = ("-----BEGIN".toList ++ e₁) ++ (m ++ ("-----END".toList ++ e₂)) := by
  constructor
  · rintro ⟨_, _, rfl, ⟨_, e₁, rfl, hbegin, he₁⟩, m, _, rfl, -, _, e₂, rfl, hend, he₂⟩
    exact ⟨e₁, m, e₂, he₁, he₂, by rw [lang_lit.mp hbegin, lang_lit.mp hend]⟩
  · rintro ⟨e₁, m, e₂, he₁, he₂, rfl⟩
    exact ⟨_, _, rfl, ⟨_, e₁, rfl, lang_lit.mpr rfl, he₁⟩, m, _, rfl,
      ⟨fun _ _ => rfl, Nat.zero_le _, by simp⟩, _, e₂, rfl, lang_lit.mpr rfl, he₂⟩

/-- A line at a place of the text after the turn was kept as a whole. -/
theorem line_kept {start e x v : List Char} {ps : List (Piece Char)} (hstart : '[' ∉ start)
    (hdashes : ∃ l, start = '-' :: '-' :: l) (he : Lang pemEnd e)
    (h : x ++ (start ++ e ++ v) = target pemReplacement ps) :
    ∃ ps₁ qs, ps = ps₁ ++ ((start ++ e).map .kept ++ qs) ∧ x = target pemReplacement ps₁ ∧
      v = target pemReplacement qs := by
  obtain ⟨l, hl⟩ := hdashes
  have hne : start ++ e ++ v ≠ [] := by
    rw [hl]
    simp
  obtain ⟨ps₁, a, ps₂, rfl, rfl, hy⟩ | ⟨s, t, hs, hrep, hy⟩ := cut_target h hne
  · have hkept : start ++ e ++ v = target pemReplacement (.kept a :: ps₂) := hy
    obtain ⟨qs, hqs, hv⟩ | ⟨y, z, old, qs, hcut, hz, -, hv⟩ := prefix_target hkept
    · exact ⟨ps₁, qs, by rw [hqs], rfl, hv⟩
    · exact (line_not_into hstart he hz hcut hv).elim
  · rw [hl] at hy
    exact (line_not_inside hs hrep hy).elim

theorem not_block_stands {r : Rule} {b f : List Char} {ps₁ qs rs : List (Piece Char)}
    (h : Spared id r (ps₁ ++ (b.map .kept ++ (qs ++ (f.map .kept ++ rs))))) (hb : b ≠ []) :
    ¬ Stands r (source ps₁).getLast? (b ++ (source qs ++ f)) (source rs) := by
  obtain ⟨a, b, rfl⟩ := List.exists_cons_of_ne_nil hb
  intro hw
  refine h ps₁ a _ (a :: b ++ (source qs ++ f)) (source rs) rfl ?_ ?_
  · simp
  · simpa only [List.map_id] using hw

theorem keeps_pemBlock : Keeps pemBlock ⟨pemBlock, pemReplacement⟩ := by
  intro xs hspared x w v heq hw
  simp only [List.map_id] at hw
  obtain ⟨e₁, m, e₂, he₁, he₂, rfl⟩ := lang_pemBlock.mp hw.1
  rw [turn, List.append_assoc] at heq
  obtain ⟨ps₁, qs, hps, -, hrest⟩ := line_kept (by decide) ⟨_, rfl⟩ he₁ heq
  rw [List.append_assoc] at hrest
  obtain ⟨qs₁, rs, rfl, -, -⟩ := line_kept (by decide) ⟨_, rfl⟩ he₂ hrest
  -- so the two lines stood in the text before, and the block between them was matched
  have hne : "-----BEGIN".toList ++ e₁ ≠ [] := List.append_ne_nil_of_left_ne_nil (by decide) e₁
  rw [hps] at hspared
  exact not_block_stands hspared hne
    ⟨lang_pemBlock.mpr ⟨e₁, source qs₁, e₂, he₁, he₂, rfl⟩, fun hedges => (by cases hedges)⟩

/-! ## What is left after all turns -/

theorem free_run_of_keeps {t : Turn} {b : List Turn} (hkeeps : ∀ s ∈ t :: b, Keeps t.rule s)
    (a : List Turn) (xs : List Char) : Free id t.rule (run (a ++ t :: b) xs) := by
  rw [run_append_cons]
  refine free_run (fun s hs ys hys => ?_) ?_
  · exact hkeeps s (List.mem_cons_of_mem t hs) ys (hys.spared (source_pieces id s.rule ys))
  · exact hkeeps t List.mem_cons_self _ (spared_pieces t.rule _)

/-- Of all rules but one the text after the turns has no word. -/
theorem free_scrubbed {r : Rule} (hr : r ∈ tokenRules ++ [jwt, privatePath, pemBlock])
    (xs : List Char) : Free id r (run turns xs) := by
  obtain hr | hr := List.mem_append.mp hr
  · obtain ⟨t, ht, rfl⟩ := List.mem_map.mp (turns_rules ▸ tokenRules_sublist.subset hr)
    obtain ⟨a, b, hab⟩ := List.append_of_mem ht
    rw [hab]
    exact free_run_of_keeps
      (fun s hs => keeps_token hr (hab ▸ List.mem_append_right a hs)) a xs
  · simp only [List.mem_cons, List.not_mem_nil, or_false] at hr
    obtain rfl | rfl | rfl := hr
    · exact free_run_of_keeps (t := ⟨jwt, _⟩) (fun s hs => keeps_jwt hs) (turns.take 7) xs
    · exact free_run_of_keeps (t := ⟨privatePath, _⟩) (fun s hs => keeps_privatePath hs)
        (turns.take 8) xs
    · refine free_run_of_keeps (t := ⟨pemBlock, pemReplacement⟩) (fun s hs => ?_) (turns.take 9) xs
      rw [List.mem_singleton.mp hs]
      exact keeps_pemBlock

/-- The text in which the tokens of the sixth pattern are looked for. -/
def beforeSlack (xs : List Char) : List Char := run (turns.take 5) xs

theorem free_beforeSlack (xs : List Char) : Free id awsAccessKey (beforeSlack xs) := by
  refine free_run_of_keeps (t := ⟨awsAccessKey, "[REDACTED:aws-key]".toList⟩) (fun s hs => ?_)
    (turns.take 4) xs
  rw [List.mem_singleton.mp hs]
  exact keeps_aws List.mem_cons_self

theorem mem_K_of_aws {w : List Char} (h : Lang awsAccessKey.body w) : 'K' ∈ w := by
  obtain ⟨u, v, rfl, hu, -⟩ := h
  rw [lang_lit.mp hu]
  exact List.mem_append_left v (by decide)

def awsTurn : Turn := ⟨awsAccessKey, "[REDACTED:aws-key]".toList⟩

theorem turns_split : turns = turns.take 4 ++ awsTurn :: turns.drop 5 := rfl

theorem no_K : (turns.all fun t => decide ('K' ∉ t.replacement)) = true :=
  replacements_checked.2.2.2.2.2

/-- A second pass changes nothing exactly when no access key is left. -/
theorem run_run_iff (xs : List Char) :
    run turns (run turns xs) = run turns xs ↔ Free id awsAccessKey (run turns xs) := by
  have hothers : ∀ t ∈ turns.take 4 ++ turns.drop 5, Free id t.rule (run turns xs) := by
    intro t ht
    refine free_scrubbed ?_ xs
    rw [turns_eq] at ht
    simp only [List.take_succ_cons, List.take_zero, List.drop_succ_cons, List.drop_zero,
      List.cons_append, List.nil_append, List.mem_cons, List.not_mem_nil, or_false] at ht
    obtain rfl | rfl | rfl | rfl | rfl | rfl | rfl | rfl | rfl := ht <;> simp [tokenRules]
  constructor
  · intro hfixed
    by_contra hleft
    -- the second pass takes an access key away, and no replacement brings its `K` back
    obtain ⟨old, hold⟩ := exists_hit_of_not_free hleft
    have hK : 'K' ∈ matched (pieces id awsAccessKey (run turns xs)) := by
      obtain ⟨ps, qs, hps⟩ := List.append_of_mem hold
      have hword := (stands_at_hit hps).1
      rw [List.map_id] at hword
      exact List.mem_flatMap.mpr ⟨_, hold, mem_K_of_aws hword⟩
    have hturn := count_target_le (c := 'K') (by decide : 'K' ∉ awsTurn.replacement)
      (pieces id awsAccessKey (run turns xs))
    rw [source_pieces] at hturn
    have hfirst : run (turns.take 4) (run turns xs) = run turns xs :=
      run_of_free fun t ht => hothers t (List.mem_append_left _ ht)
    have hrest : (run (turns.drop 5) (turn awsTurn (run turns xs))).count 'K' ≤
        (turn awsTurn (run turns xs)).count 'K' :=
      count_run_le fun t ht => of_decide_eq_true (List.all_eq_true.mp no_K t (List.mem_of_mem_drop ht))
    have hsplit : run turns (run turns xs) =
        run (turns.drop 5) (turn awsTurn (run (turns.take 4) (run turns xs))) := by
      rw [← run_append_cons, ← turns_split]
    rw [hsplit, hfirst] at hfixed
    rw [hfixed] at hrest
    have hpos := List.count_pos_iff.mpr hK
    have hafter : (turn awsTurn (run turns xs)).count 'K' =
        (target awsTurn.replacement (pieces id awsAccessKey (run turns xs))).count 'K' := rfl
    omega
  · intro hfree
    refine run_of_free fun t ht => ?_
    rw [turns_split] at ht
    obtain ht | ht := List.mem_append.mp ht
    · exact hothers t (List.mem_append_left _ ht)
    · obtain rfl | ht := List.mem_cons.mp ht
      · exact hfree
      · exact hothers t (List.mem_append_right _ ht)

end Scrub
end Batiste
