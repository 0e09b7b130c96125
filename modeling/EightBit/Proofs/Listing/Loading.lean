import EightBit.Listing.Load
import EightBit.Proofs.Writing
import Mathlib.Data.List.Basic
import Mathlib.Data.List.Induction

/-! What loading a listing answers, told from its tokens alone. -/
namespace EightBit

namespace Listing

/-- The tokens of all lines, empty ones included. -/
def tokens (text : List Char) : List (List Char) :=
  (Text.lines text).map token

/-- At most eight bytes of UTF-8 that are a binary number. -/
def Good (t : List Char) : Prop :=
  (String.ofList t).utf8ByteSize ≤ 8 ∧ (unsigned? 2 256 t).isSome = true

instance (t : List Char) : Decidable (Good t) :=
  inferInstanceAs (Decidable (_ ∧ _))

def goodCount (ts : List (List Char)) : Nat :=
  ts.countP fun t => decide (Good t)

/-- The values of the good tokens. -/
def bytes (ts : List (List Char)) : List UInt8 :=
  (ts.filter fun t => decide (Good t)).map fun t => UInt8.ofNat ((unsigned? 2 256 t).getD 0)

/-- What is wrong with a token that comes after a number of good tokens. -/
def offence? (size earlier : Nat) (t : List Char) : Option (Cause × String) :=
  let text := String.ofList t
  if t = [] then none
  else if 8 < text.utf8ByteSize then
    some (.tooManyDigits, "`" ++ text ++ "` has " ++ decimal text.utf8ByteSize ++ " digits")
  else if unsigned? 2 256 t = none then
    some (.notBinary, "`" ++ text ++ "` is not a binary number")
  else if size ≤ earlier then some (.noSuchAddress size, "program is larger than memory")
  else none

/-- The errors of the lines with the given tokens. Lines count from one. -/
def offences (size : Nat) (ts : List (List Char)) : List Error :=
  ts.zipIdx.filterMap fun (t, k) =>
    (offence? size (goodCount (ts.take k)) t).map fun (cause, context) => ⟨cause, context, k + 1⟩

variable {size earlier : Nat} {t : List Char} {ts : List (List Char)}

theorem not_good_nil : ¬ Good [] := by
  simp [Good, unsigned?]

theorem goodCount_concat :
    goodCount (ts ++ [t]) = goodCount ts + if Good t then 1 else 0 := by
  by_cases h : Good t <;> simp [goodCount, h]

theorem length_bytes : (bytes ts).length = goodCount ts := by
  simp [bytes, goodCount, List.countP_eq_length_filter]

theorem offence?_eq_none_iff :
    offence? size earlier t = none ↔ t = [] ∨ Good t ∧ earlier < size := by
  unfold offence? Good
  by_cases ht : t = []
  · simp [ht]
  · by_cases hl : 8 < (String.ofList t).utf8ByteSize
    · simp [ht, hl, Nat.not_le.mpr hl]
    · cases unsigned? 2 256 t <;> simp [ht, hl, Nat.le_of_not_lt hl]

theorem byte_of_good (h : Good t) :
    byte t = .ok (UInt8.ofNat ((unsigned? 2 256 t).getD 0)) := by
  obtain ⟨n, hn⟩ := Option.isSome_iff_exists.mp h.2
  simp [byte, hn, Nat.not_lt.mpr h.1]

theorem byte_of_not_good (size earlier : Nat) (hne : t ≠ []) (h : ¬ Good t) : ∃ cause context,
    byte t = .error (cause, context) ∧ offence? size earlier t = some (cause, context) := by
  by_cases hl : 8 < (String.ofList t).utf8ByteSize
  · refine ⟨.tooManyDigits, "`" ++ String.ofList t ++ "` has " ++
      decimal (String.ofList t).utf8ByteSize ++ " digits", ?_, ?_⟩
    · simp only [byte, if_pos hl]
    · simp only [offence?, if_neg hne, if_pos hl]
  · have hn : unsigned? 2 256 t = none := by
      simpa [Good, Nat.le_of_not_lt hl] using h
    refine ⟨.notBinary, "`" ++ String.ofList t ++ "` is not a binary number", ?_, ?_⟩
    · simp only [byte, if_neg hl, hn]
    · simp only [offence?, if_neg hne, if_neg hl, if_pos hn]

theorem offence?_of_good (h : Good t) (hs : size ≤ earlier) : offence? size earlier t =
    some (.noSuchAddress size, "program is larger than memory") := by
  have hne : t ≠ [] := by
    rintro rfl
    exact not_good_nil h
  obtain ⟨n, hn⟩ := Option.isSome_iff_exists.mp h.2
  simp [offence?, hne, hn, hs, Nat.not_lt.mpr h.1]

theorem bytes_concat : bytes (ts ++ [t]) =
    bytes ts ++ if Good t then [UInt8.ofNat ((unsigned? 2 256 t).getD 0)] else [] := by
  by_cases h : Good t <;> simp [bytes, h]

theorem offences_concat : offences size (ts ++ [t]) = offences size ts ++
    ((offence? size (goodCount ts) t).map fun p => ⟨p.1, p.2, ts.length + 1⟩).toList := by
  simp only [offences, List.zipIdx_append, List.filterMap_append]
  congr 1
  · apply List.filterMap_congr
    rintro ⟨s, k⟩ hs
    have hk : k < ts.length := (List.mem_zipIdx' hs).1
    simp only [List.take_append_of_le_length (Nat.le_of_lt hk)]
  · cases h : offence? size (goodCount ts) t <;> simp [h]

theorem offences_eq_nil_iff :
    offences size ts = [] ↔ (∀ t ∈ ts, t ≠ [] → Good t) ∧ goodCount ts ≤ size := by
  induction ts using List.reverseRecOn with
  | nil => simp [offences, goodCount]
  | append_singleton ts t ih =>
    rw [offences_concat, List.append_eq_nil_iff, ih, Option.toList_eq_nil_iff,
      Option.map_eq_none_iff, offence?_eq_none_iff, goodCount_concat]
    have hne : Good t → t ≠ [] := by
      rintro hg rfl
      exact not_good_nil hg
    by_cases ht : Good t
    · have := hne ht
      simp only [List.mem_append, List.mem_singleton, if_pos ht]
      grind
    · simp only [List.mem_append, List.mem_singleton, if_neg ht]
      grind

theorem mem_offences_iff {e : Error} : e ∈ offences size ts ↔ ∃ k t, ts[k]? = some t ∧
    e.line = k + 1 ∧ offence? size (goodCount (ts.take k)) t = some (e.cause, e.context) := by
  simp only [offences, List.mem_filterMap, Option.map_eq_some_iff]
  constructor
  · rintro ⟨⟨t, k⟩, hk, ⟨cause, context⟩, ho, rfl⟩
    exact ⟨k, t, List.mem_zipIdx_iff_getElem?.mp hk, rfl, ho⟩
  · rintro ⟨k, t, hk, hl, ho⟩
    refine ⟨(t, k), List.mem_zipIdx_iff_getElem?.mpr hk, _, ho, ?_⟩
    rw [← hl]

namespace Loader

variable {memory : Memory size} {log : Log} {l : Loader size}

/-- The log with an entry for each of the errors. -/
def logged (log : Log) (errors : List Error) : Log :=
  errors.foldl (fun log e => log.record .error .loader fun _ => e.message) log

/-- The loader after the lines with the given tokens. -/
def reached (memory : Memory size) (log : Log) (ts : List (List Char)) : Loader size where
  memory := memory.place 0 (bytes ts)
  count := min size (goodCount ts)
  errors := (offences size ts).reverse
  log := logged log (offences size ts)

theorem takeLines_concat (number : Nat) (lines : List (List Char)) (line : List Char) :
    l.takeLines number (lines ++ [line]) =
      (l.takeLines number lines).takeLine (number + lines.length) line := by
  induction lines generalizing l number with
  | nil => rfl
  | cons first lines ih =>
    simp only [List.cons_append, takeLines, ih, List.length_cons]
    congr 1
    omega

theorem logged_concat (log : Log) (errors : List Error) (e : Error) :
    logged log (errors ++ [e]) =
      (logged log errors).record .error .loader fun _ => e.message := by
  simp [logged]

theorem reached_of_offence {line : List Char} {cause : Cause} {context : String}
    (hn : ¬ Good (token line) ∨ size ≤ goodCount ts)
    (ho : offence? size (goodCount ts) (token line) = some (cause, context)) :
    reached memory log (ts ++ [token line]) =
      (reached memory log ts).report ⟨cause, context, ts.length + 1⟩ := by
  have hcount : min size (goodCount (ts ++ [token line])) = min size (goodCount ts) := by
    rw [goodCount_concat]
    rcases hn with hn | hn
    · simp [hn]
    · omega
  have hmem : memory.place 0 (bytes (ts ++ [token line])) = memory.place 0 (bytes ts) := by
    rw [bytes_concat]
    rcases hn with hn | hn
    · simp [hn]
    · split
      · rw [Memory.place_concat, Memory.set_of_size_le (by rw [length_bytes]; omega)]
      · simp
  simp [reached, report, hcount, hmem, offences_concat, ho, logged_concat]

theorem takeLine_reached (line : List Char) :
    (reached memory log ts).takeLine (ts.length + 1) line =
      reached memory log (ts ++ [token line]) := by
  by_cases ht : token line = []
  · have hg : ¬ Good (token line) := ht ▸ not_good_nil
    have ho : offence? size (goodCount ts) (token line) = none :=
      offence?_eq_none_iff.mpr (.inl ht)
    simp [takeLine, reached, ht, goodCount_concat, bytes_concat, offences_concat, not_good_nil,
      ht ▸ ho]
  · by_cases hg : Good (token line)
    · by_cases hs : goodCount ts < size
      · have hcount : min size (goodCount ts) = goodCount ts := Nat.min_eq_right (Nat.le_of_lt hs)
        have hnext : min size (goodCount (ts ++ [token line])) = goodCount ts + 1 := by
          rw [goodCount_concat, if_pos hg]
          exact Nat.min_eq_right hs
        have ho : offence? size (goodCount ts) (token line) = none :=
          offence?_eq_none_iff.mpr (.inr ⟨hg, hs⟩)
        simp [takeLine, ht, byte_of_good hg, put, reached, hs, hcount, hnext, bytes_concat,
          offences_concat, ho, hg, Memory.place_concat, length_bytes]
      · have hsize : size ≤ goodCount ts := Nat.le_of_not_lt hs
        have hcount : min size (goodCount ts) = size := Nat.min_eq_left hsize
        rw [reached_of_offence (.inr hsize) (offence?_of_good hg hsize)]
        simp [takeLine, ht, byte_of_good hg, put, reached, hcount]
    · obtain ⟨cause, context, hb, ho⟩ := byte_of_not_good size (goodCount ts) ht hg
      rw [reached_of_offence (.inl hg) ho]
      simp [takeLine, ht, hb]

theorem takeLines_start (lines : List (List Char)) :
    (start memory log).takeLines 1 lines = reached memory log (lines.map token) := by
  induction lines using List.reverseRecOn with
  | nil => simp [takeLines, start, reached, bytes, goodCount, offences, logged, Memory.place]
  | append_singleton lines line ih =>
    rw [takeLines_concat, ih, Nat.add_comm, List.map_append, List.map_singleton,
      ← takeLine_reached, List.length_map]

end Loader

variable {memory : Memory size} {log : Log}

theorem load_eq_ok {text : List Char} (h : offences size (tokens text) = []) :
    load text memory log = (.ok (memory.place 0 (bytes (tokens text))),
      log.record .debug .loader fun _ =>
        "Loaded " ++ decimal (goodCount (tokens text)) ++ " bytes") := by
  have hc : min size (goodCount (tokens text)) = goodCount (tokens text) :=
    Nat.min_eq_right (offences_eq_nil_iff.mp h).2
  rw [load, Loader.takeLines_start]
  change (Loader.reached memory log (tokens text)).finish = _
  simp [Loader.finish, Loader.reached, h, hc, Loader.logged]

theorem load_eq_error {text : List Char} (h : offences size (tokens text) ≠ []) :
    load text memory log = (.error (offences size (tokens text)),
      Loader.logged log (offences size (tokens text))) := by
  rw [load, Loader.takeLines_start]
  change (Loader.reached memory log (tokens text)).finish = _
  simp [Loader.finish, Loader.reached, h]

theorem of_load_eq_error {text : List Char} {errors : List Error}
    (h : (load text memory log).1 = .error errors) : errors = offences size (tokens text) ∧
      (load text memory log).2 = Loader.logged log errors := by
  by_cases ho : offences size (tokens text) = []
  · rw [load_eq_ok ho] at h
    cases h
  · rw [load_eq_error ho] at h ⊢
    cases h
    exact ⟨rfl, rfl⟩

end Listing
end EightBit
