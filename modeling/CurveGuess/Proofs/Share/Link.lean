import CurveGuess.Proofs.Share.Query
import CurveGuess.Proofs.Share.Token
import CurveGuess.Terminal.Program

/-!
# Sharing a text

What someone shares is what the other one plays: a text comes back out of its token and of a link
that holds it, and a game that is started with either has the text as its target.
-/
namespace CurveGuess

namespace Share

theorem isAlphanum_or_of_mem_encode {s : String} {c : Char} (h : c ∈ (encode s).toList) :
    c.isAlphanum ∨ c = '-' ∨ c = '_' := by
  rw [encode, String.toList_ofList] at h
  obtain h | h := Base64.Alphabet.isAlphanum_or_mem_last (Base64.mem_symbols_of_mem_encode h)
  · exact .inl h
  · exact .inr (by simpa [Base64.Alphabet.last] using h)

/-- No separator of a link stands in a token. -/
theorem not_mem_encode {s : String} {c : Char} (h : c ∈ ['?', '&', '#']) :
    c ∉ (encode s).toList := by
  have hall : ['?', '&', '#'].all (fun c => ¬(c.isAlphanum ∨ c = '-' ∨ c = '_')) = true := by
    decide
  exact fun hc => of_decide_eq_true (List.all_eq_true.1 hall c h) (isAlphanum_or_of_mem_encode hc)

theorem decode_encode (s : String) {before after : String}
    (hbefore : ∀ c ∈ before.toList, isBlank c = true)
    (hafter : ∀ c ∈ after.toList, isBlank c = true) :
    decode (before ++ encode s ++ after) = .ok s := by
  rw [decode_eq_ok_iff, encode_eq_token, trim_token hbefore hafter]
  exact .inl rfl

theorem decode_encode_self (s : String) : decode (encode s) = .ok s := by
  simpa using @decode_encode s "" "" (by simp) (by simp)

/-- The token of a link is found again if nothing before it looks like a query. -/
theorem token?_link {origin path s : String} (horigin : '?' ∉ origin.toList)
    (hpath : '?' ∉ path.toList) : token? (link origin path s) = some (encode s) := by
  have hbefore : '?' ∉ (origin ++ path).toList := by simp [horigin, hpath]
  have hvalue : ∀ c ∈ ['&', '#'], c ∉ (encode s).toList := fun c hc =>
    not_mem_encode (List.mem_cons_of_mem '?' hc)
  let a : Address :=
    ⟨origin ++ path, [.pair parameter (encode s) (by simp [parameter]) hvalue], none, hbefore⟩
  have htext : link origin path s = a.text := by
    simp [link, a, Address.text, Item.text, String.append_assoc]
  rw [htext, a.token?_text]
  simp [a, Item.value?]

/-- A token is no link. -/
theorem token?_encode (s : String) : token? (encode s) = none := by
  rw [token?, query?_eq_none (not_mem_encode (by simp))]
  rfl

theorem target_link {origin path s : String} (horigin : '?' ∉ origin.toList)
    (hpath : '?' ∉ path.toList) : target (link origin path s) = .ok s := by
  rw [target, token?_link horigin hpath]
  exact decode_encode_self s

end Share

namespace Terminal.Game

/-- Does a game start with a practice session on the screen that has the given target? -/
def StartsWith (started : Except StartFault (Step Game String)) (formal : String) : Prop :=
  ∃ step s, started = .ok step ∧ step.state.active? = some s ∧ s.mode = .practice ∧
    s.challenge = .ofText formal

theorem startsWith_of_decode {a : Arguments} {shared formal : String} (today : Date) (fresh : Seed)
    (h : Share.decode ((Share.token? shared).getD shared) = .ok formal) :
    StartsWith (start { a with share := some shared } today fresh) formal := by
  have hstart : start { a with share := some shared } today fresh =
      .ok (((blank a today).startPractice (Session.ofTarget .practice a.tier formal)).map fun _ =>
        "Shared challenge loaded! Try to guess the function.") := by
    simp only [start, h]
    rfl
  exact ⟨_, (Session.ofTarget .practice a.tier formal).state, hstart, rfl, rfl, rfl⟩

end Terminal.Game

open Terminal (Arguments Game)

/-- A text comes back from its token, with or without blanks around it, and from a link whose origin
and path have no question mark. A token is letters, digits, hyphens and underscores. A game that is
given the token or the link starts with the text as its target. -/
theorem share_round_trip (formal : String) :
    Share.decode (Share.encode formal) = .ok formal ∧
    (∀ before after : String, (∀ c ∈ before.toList, isBlank c = true) →
      (∀ c ∈ after.toList, isBlank c = true) →
        Share.decode (before ++ Share.encode formal ++ after) = .ok formal) ∧
    (∀ c ∈ (Share.encode formal).toList, c.isAlphanum ∨ c = '-' ∨ c = '_') ∧
    (∀ (a : Arguments) (today : Date) (fresh : Seed), Game.StartsWith
      (Game.start { a with share := some (Share.encode formal) } today fresh) formal) ∧
    ∀ origin path : String, '?' ∉ origin.toList → '?' ∉ path.toList →
      Share.target (Share.link origin path formal) = .ok formal ∧
      ∀ (a : Arguments) (today : Date) (fresh : Seed), Game.StartsWith
        (Game.start { a with share := some (Share.link origin path formal) } today fresh)
        formal := by
  have hdecode := Share.decode_encode_self formal
  refine ⟨hdecode, fun before after hbefore hafter => Share.decode_encode formal hbefore hafter,
    fun c => Share.isAlphanum_or_of_mem_encode, ?_, ?_⟩
  · intro a today fresh
    exact Game.startsWith_of_decode today fresh (by rw [Share.token?_encode]; exact hdecode)
  · intro origin path horigin hpath
    refine ⟨Share.target_link horigin hpath, fun a today fresh => ?_⟩
    exact Game.startsWith_of_decode today fresh
      (by rw [Share.token?_link horigin hpath]; exact hdecode)

theorem share_round_trip_sine :
    Share.decode (" " ++ "NVxzaW4oeCk" ++ "\n") = .ok "5\\sin(x)" ∧
    Share.target "https://graphle.example/play?f=NVxzaW4oeCk" = .ok "5\\sin(x)" ∧
    Game.StartsWith (Game.start
      { Arguments.default with share := some "https://graphle.example/play?f=NVxzaW4oeCk" }
      ⟨2024, 2, 29, by decide, by decide, by decide, by decide⟩ ⟨0⟩) "5\\sin(x)" := by
  have hbefore : ∀ c ∈ " ".toList, isBlank c = true := List.all_eq_true.1 (by decide +kernel)
  have hafter : ∀ c ∈ "\n".toList, isBlank c = true := List.all_eq_true.1 (by decide +kernel)
  have hencode : Share.encode "5\\sin(x)" = "NVxzaW4oeCk" := by decide +kernel
  have hlink : Share.link "https://graphle.example" "/play" "5\\sin(x)" =
      "https://graphle.example/play?f=NVxzaW4oeCk" := by decide +kernel
  obtain ⟨-, hdecode, -, -, hlinks⟩ := share_round_trip "5\\sin(x)"
  obtain ⟨htarget, hstart⟩ :=
    hlinks "https://graphle.example" "/play" (by decide +kernel) (by decide +kernel)
  rw [hlink] at htarget hstart
  rw [← hencode]
  exact ⟨hdecode " " "\n" hbefore hafter, htarget, hstart _ _ _⟩

end CurveGuess
