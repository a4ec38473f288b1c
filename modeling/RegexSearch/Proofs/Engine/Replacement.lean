import RegexSearch.Proofs.Engine.Calls
import RegexSearch.Proofs.Enumeration

/-!
Replacing matches. The matches that a scan finds follow each other from left to right and lie in
the text, so the text falls into these matches and the pieces between them. The new text has the
replacement in the place of each match and the other pieces as they were. If a call of the scan
fails, the text stays as it is, whatever the calls before have found.
-/

namespace RegexSearch

/-- How a new byte string comes from an old one, which begins at an offset of a text: what stands in
a span of the text is replaced, and everything else is kept. -/
inductive Spliced (replacement : Bytes) : (offset : Nat) → List Span → (old new : Bytes) → Prop
  | kept (offset : Nat) (rest : Bytes) : Spliced replacement offset [] rest rest
  | replaced {offset : Nat} {span : Span} {spans : List Span} {front inside old new : Bytes}
      (hfront : offset + front.length = span.start)
      (hinside : span.start + inside.length = span.stop)
      (behind : Spliced replacement span.stop spans old new) :
      Spliced replacement offset (span :: spans) (front ++ (inside ++ old))
        (front ++ (replacement ++ new))

namespace Spliced

variable {replacement : Bytes} {offset : Nat} {spans : List Span} {old new : Bytes}

/-- The spans and the old bytes determine the new ones. -/
theorem unique (h : Spliced replacement offset spans old new) {other : Bytes}
    (h' : Spliced replacement offset spans old other) : other = new := by
  induction h generalizing other with
  | kept offset rest =>
      cases h'
      rfl
  | @replaced offset span spans front inside old new hfront hinside behind ih =>
      generalize hbytes : front ++ (inside ++ old) = bytes at h'
      cases h' with
      | replaced hfront' hinside' behind' =>
          obtain ⟨rfl, hrest⟩ := List.append_inj hbytes (by omega)
          obtain ⟨-, rfl⟩ := List.append_inj hrest (by omega)
          rw [ih behind']

/-- The old bytes are as many as those that are replaced and those that are kept. -/
theorem length (h : Spliced replacement offset spans old new) :
    (spans.map Span.length).sum ≤ old.length ∧
      new.length = old.length - (spans.map Span.length).sum +
        spans.length * replacement.length := by
  induction h with
  | kept offset rest => simp
  | @replaced offset span spans front inside old new hfront hinside behind ih =>
      have hlength : span.length = inside.length := by
        rw [Span.length]
        omega
      obtain ⟨hle, hnew⟩ := ih
      simp only [List.map_cons, List.sum_cons, List.length_append, List.length_cons,
        Nat.succ_mul, hlength, hnew]
      omega

end Spliced

theorem Span.length_bytes {text : Text} {start stop : Nat} (hstop : stop ≤ text.size) :
    (Span.bytes ⟨start, stop⟩ text).length = stop - start := by
  simp only [Span.bytes, Array.length_toList, Array.size_extract, Nat.min_eq_left hstop]

theorem Span.bytes_append {text : Text} {start middle stop : Nat} (hstart : start ≤ middle)
    (hstop : middle ≤ stop) :
    Span.bytes ⟨start, middle⟩ text ++ Span.bytes ⟨middle, stop⟩ text =
      Span.bytes ⟨start, stop⟩ text := by
  simp only [Span.bytes, ← Array.toList_append, Array.extract_append_extract,
    Nat.min_eq_left hstart, Nat.max_eq_right hstop]

theorem Span.bytes_all (text : Text) : Span.bytes ⟨0, text.size⟩ text = text.toList := by
  simp only [Span.bytes, Array.extract_size]

/-- The text is put together from what stands in front of each match, the replacement in its place,
and what stands behind the last one. The search goes on further behind an empty match than copying
does, so the position of the search is only a bound for the offset copied up to. -/
theorem Search.Enumerates.spliced {search : Search} (hsearch : search.FromTree)
    (replacement : Bytes) {position behind copied : Nat} {found : List Match}
    (h : search.Enumerates position found behind) (hposition : copied ≤ position)
    (hsize : copied ≤ search.text.size) :
    Spliced replacement copied (found.map (·.span))
      (Span.bytes ⟨copied, search.text.size⟩ search.text)
      (Text.splice search.text replacement copied found) := by
  induction h generalizing copied with
  | done position => exact .kept copied _
  | @more position behind first rest hfirst others ih =>
      obtain ⟨out, groups, hstop, hwithin, hout⟩ :=
        hsearch.exists_outcome hfirst.start_lt.le hfirst.attempted
      have hle : first.span.start ≤ first.span.stop := by
        rw [hout]
        exact hstop
      have hend : first.span.stop ≤ search.text.size := by
        rw [hout]
        exact hwithin.offset
      have hfront : copied ≤ first.span.start := Nat.le_trans hposition hfirst.position_le
      have hold : Span.bytes ⟨copied, search.text.size⟩ search.text =
          Span.bytes ⟨copied, first.span.start⟩ search.text ++
            (first.span.bytes search.text ++
              Span.bytes ⟨first.span.stop, search.text.size⟩ search.text) := by
        have hrest : first.span.bytes search.text ++
            Span.bytes ⟨first.span.stop, search.text.size⟩ search.text =
              Span.bytes ⟨first.span.start, search.text.size⟩ search.text :=
          Span.bytes_append hle hend
        rw [hrest, Span.bytes_append hfront (Nat.le_trans hle hend)]
      rw [List.map_cons, Text.splice, hold, List.append_assoc]
      apply Spliced.replaced
      · rw [Span.length_bytes (Nat.le_trans hle hend)]
        omega
      · have hlength : (first.span.bytes search.text).length =
            first.span.stop - first.span.start := Span.length_bytes hend
        rw [hlength]
        omega
      · exact ih (Search.stop_le_resumption first) hend

/-- Replacing puts the replacement in the place of each match, and keeps every other byte, or it
changes nothing. The matches are those that so many calls of a scan find, or fewer if a call finds
none. If the pattern does not compile or one of these calls times out, this is reported, with the
text as it was. A call that would come after them plays no part. -/
theorem replace_splices (options : Options) (before : List Call) (pattern : Bytes) (text : Text)
    (replacement : Bytes) (count : Nat) :
    let engine := ((Engine.new options).performAll before).2
    let result := (engine.replace pattern text replacement count).1
    match Engine.compiled options pattern with
    | .error error => result = ⟨some error, 0, text.toList⟩
    | .ok program =>
      let search : Search := ⟨program, text, options.limit⟩
      match Scan.listed (Scan.results (Scan.next search) count .start) with
      | .error error => error = .timeout ∧ result = ⟨some error, 0, text.toList⟩
      | .ok found =>
        result.error = none ∧ result.count = found.length ∧
        (∀ new, Spliced replacement 0 (found.map (·.span)) text.toList new ↔ new = result.text) ∧
        (found.map (·.span.length)).sum ≤ text.size ∧
        result.text.length = text.size - (found.map (·.span.length)).sum +
          found.length * replacement.length := by
  intro engine result
  have hresult : Answer.replacement result =
      (Call.replace pattern text replacement count).answer options.limit
        (Engine.compiled options pattern) :=
    Engine.perform_performAll options before (.replace pattern text replacement count)
  simp only [Call.answer, Answer.replacement.injEq] at hresult
  cases hcompiled : Engine.compiled options pattern with
  | error error =>
      rw [hcompiled] at hresult
      exact hresult
  | ok program =>
      rw [hcompiled] at hresult
      let search : Search := ⟨program, text, options.limit⟩
      have hsearch : search.FromTree := .of_compilePattern hcompiled text options.limit
      have hreplace : result = search.replace replacement count := hresult
      dsimp only
      rw [← Scan.take_eq_listed]
      rw [Search.replace] at hreplace
      rcases Scan.take_cases hsearch.coherent count 0 with
        ⟨found, behind, hfound, henumerates, -⟩ | ⟨-, -, offset, error, herror, -, -, -, -, hcut⟩
      · have htake : Scan.start.take search count = .ok found := hfound
        have hspliced := henumerates.spliced hsearch replacement (Nat.le_refl 0) (Nat.zero_le _)
        rw [Span.bytes_all] at hspliced
        rw [htake] at hreplace ⊢
        obtain ⟨hle, hlength⟩ := hspliced.length
        simp only [List.map_map, Array.length_toList, List.length_map] at hle hlength
        rw [hreplace]
        refine ⟨rfl, rfl, ?_, hle, hlength⟩
        intro new
        constructor
        · intro hnew
          exact hspliced.unique hnew
        · rintro rfl
          exact hspliced
      · have htake : Scan.start.take search count = .error error := herror
        rw [htake] at hreplace ⊢
        exact ⟨eq_timeout_of_attempt hcut, hreplace⟩

/-- With eight steps for each attempt, the attempt at the second match of `a+` in `abaaaa` times out;
one match can be replaced, two cannot. -/
example :
    let engine := Engine.new { stepLimit := 8 }
    let text : Text := #[97, 98, 97, 97, 97, 97]
    (engine.replace (ascii "a+") text [45] 1).1 = ⟨none, 1, [45, 98, 97, 97, 97, 97]⟩ ∧
      (engine.replace (ascii "a+") text [45] 2).1 = ⟨some .timeout, 0, text.toList⟩ :=
  ⟨rfl, rfl⟩

end RegexSearch
