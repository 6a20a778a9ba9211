/-
**What the admin panel sends is inert wherever it is pasted, and loses nothing.**

A body is the text of a JSON value in which five characters are written as their `\u` escapes, with
no look at what stands around them. JSON has these characters inside of strings only, and there never
behind a backslash, so the text means what it meant.

* `rewrites_escaped` — each of the five is such a character, and its escape is its unit.
* `not_dangerous_escapeForEmbedding` — none of the five is left.
* `admin_json_inert` — the body of every response is a JSON text of the value that was serialized.

The serializer is a parameter: what it returns is a JSON text.
-/

import HullCi.Base.Json

namespace HullCi.Server.Admin

open HullCi.Base

/-- A character that is legal in JSON and dangerous in HTML or JavaScript. -/
def Dangerous (c : Char) : Prop :=
  c = '<' ∨ c = '>' ∨ c = '&' ∨ c = '\u2028' ∨ c = '\u2029'

/-- A character as it is embedded. -/
def escaped (c : Char) : List Char :=
  if c = '<' then ['\\', 'u', '0', '0', '3', 'c']
  else if c = '>' then ['\\', 'u', '0', '0', '3', 'e']
  else if c = '&' then ['\\', 'u', '0', '0', '2', '6']
  else if c = '\u2028' then ['\\', 'u', '2', '0', '2', '8']
  else if c = '\u2029' then ['\\', 'u', '2', '0', '2', '9']
  else [c]

/-- `\u`-escape the characters that are legal in JSON and dangerous in HTML or JavaScript. -/
def escapeForEmbedding (json : String) : String :=
  String.ofList (json.toList.flatMap escaped)

structure Response where
  status : ℕ
  headers : List (String × String)
  body : String
  deriving DecidableEq, Repr

/-- One admin response. -/
structure AdminJson (V : Type) where
  status : ℕ
  value : V

section Responses

variable {V : Type} (toJson : V → Option String)

/-- The serialized value, and an empty object where it cannot be serialized. -/
def serialized (value : V) : String :=
  (toJson value).getD "\x7b\x7d"

def AdminJson.intoResponse (reply : AdminJson V) : Response where
  status := reply.status
  headers := [("content-type", "application/json"), ("x-content-type-options", "nosniff")]
  body := escapeForEmbedding (serialized toJson reply.value)

end Responses

/-! ### The five characters -/

theorem rewrites_escaped : Json.Rewrites escaped := by
  intro c
  have inside : ∀ {c : Char}, Dangerous c → Json.InStrings c := by
    rintro c (rfl | rfl | rfl | rfl | rfl) <;> constructor <;> decide
  by_cases dangerous : Dangerous c
  · refine .inr ⟨inside dangerous, ?_⟩
    obtain rfl | rfl | rfl | rfl | rfl := dangerous
    · exact ⟨'0', '0', '3', 'c', 0, 0, 3, 12, by decide⟩
    · exact ⟨'0', '0', '3', 'e', 0, 0, 3, 14, by decide⟩
    · exact ⟨'0', '0', '2', '6', 0, 0, 2, 6, by decide⟩
    · exact ⟨'2', '0', '2', '8', 2, 0, 2, 8, by decide⟩
    · exact ⟨'2', '0', '2', '9', 2, 0, 2, 9, by decide⟩
  · refine .inl ?_
    simp only [Dangerous, not_or] at dangerous
    obtain ⟨less, greater, ampersand, line, paragraph⟩ := dangerous
    unfold escaped
    rw [if_neg less, if_neg greater, if_neg ampersand, if_neg line, if_neg paragraph]

theorem not_dangerous_escaped {c c' : Char} (mem : c' ∈ escaped c) : ¬ Dangerous c' := by
  have harmless : ∀ {l : List Char}, c' ∈ l → (l.all fun c =>
      c != '<' && c != '>' && c != '&' && c != '\u2028' && c != '\u2029') = true →
        ¬ Dangerous c' := by
    intro l mem every
    have one := List.all_eq_true.mp every c' mem
    rintro (rfl | rfl | rfl | rfl | rfl) <;> exact absurd one (by decide)
  unfold escaped at mem
  split_ifs at mem with less greater ampersand line paragraph
  · exact harmless mem (by decide)
  · exact harmless mem (by decide)
  · exact harmless mem (by decide)
  · exact harmless mem (by decide)
  · exact harmless mem (by decide)
  · rw [List.mem_singleton.mp mem]
    rintro (rfl | rfl | rfl | rfl | rfl) <;> contradiction

/-- **None of them is left.** -/
theorem not_dangerous_escapeForEmbedding (json : String) :
    ∀ c ∈ (escapeForEmbedding json).toList, ¬ Dangerous c := by
  intro c mem
  unfold escapeForEmbedding at mem
  rw [String.toList_ofList] at mem
  obtain ⟨before, -, mem⟩ := List.mem_flatMap.mp mem
  exact not_dangerous_escaped mem

/-- **Every body is inert, and a JSON text of the value that was serialized.** -/
theorem admin_json_inert {V : Type} {toJson : V → Option String}
    (writes : ∀ value text, toJson value = some text → ∃ json, Json.parse text.toList = some json)
    (reply : AdminJson V) :
    (∀ c ∈ (reply.intoResponse toJson).body.toList, ¬ Dangerous c) ∧
      ∃ json, Json.parse (reply.intoResponse toJson).body.toList = some json ∧
        Json.parse (serialized toJson reply.value).toList = some json := by
  refine ⟨not_dangerous_escapeForEmbedding _, ?_⟩
  obtain ⟨json, parsed⟩ : ∃ json, Json.parse (serialized toJson reply.value).toList = some json := by
    unfold serialized
    cases made : toJson reply.value with
    | none => exact ⟨.object [], by rfl⟩
    | some text => exact writes _ _ made
  refine ⟨json, ?_, parsed⟩
  unfold AdminJson.intoResponse escapeForEmbedding
  rw [String.toList_ofList]
  exact Json.parse_flatMap rewrites_escaped parsed

/-- The text of a list of one string, a backslash before a tag. -/
def taggedText (_ : Unit) : Option String :=
  some "[\"\\\\<b>\"]"

theorem admin_json_inert_tagged :
    (∀ c ∈ ((⟨200, ()⟩ : AdminJson Unit).intoResponse taggedText).body.toList, ¬ Dangerous c) ∧
      Json.parse ((⟨200, ()⟩ : AdminJson Unit).intoResponse taggedText).body.toList =
        some (.array [.string [92, 60, 98, 62]]) := by
  have parsed : Json.parse (serialized taggedText ()).toList =
      some (.array [.string [92, 60, 98, 62]]) := by
    rfl
  obtain ⟨inert, json, body, same⟩ := @admin_json_inert Unit taggedText
    (fun value text made => ⟨_, by cases made; exact parsed⟩) ⟨200, ()⟩
  refine ⟨inert, body.trans ?_⟩
  exact same.symm.trans parsed

end HullCi.Server.Admin
