import Mathlib.Algebra.Group.Int.Defs
import Mathlib.Data.Int.Order.Basic
import Mathlib.Logic.Function.Basic
import Toa.Lib.Run

/-! One-time passwords. Codes and the counters of attempts stand in one stash under keys that are
joined of what the client says, and redemptions of them interleave at every command. -/

namespace Toa.Identity.Otp
open Run

/-! ## The stash -/

/-- A key with a value. `issue` says which issued code it is, where it is one. -/
structure Entry where
  value : String
  expires : Option ℕ
  issue : Option ℕ
deriving DecidableEq

abbrev Stash := String → Option Entry

namespace Stash

def live (stash : Stash) (now : ℕ) (key : String) : Option Entry :=
  (stash key).filter fun entry => entry.expires.all (now < ·)

def set (stash : Stash) (now : ℕ) (key value : String) (seconds : ℕ) (issue : ℕ) : Stash :=
  Function.update stash key (some ⟨value, some (now + seconds * 1000), some issue⟩)

def get (stash : Stash) (now : ℕ) (key : String) : Option String :=
  (stash.live now key).map (·.value)

def del (stash : Stash) (now : ℕ) (key : String) : ℕ × Stash :=
  match stash.live now key with
  | none => (0, stash)
  | some _ => (1, Function.update stash key none)

def incr (stash : Stash) (now : ℕ) (key : String) : Option (ℤ × Stash) :=
  match stash.live now key with
  | none => some (1, Function.update stash key (some ⟨"1", none, none⟩))
  | some entry => entry.value.toInt?.bind fun n =>
    if n + 1 < 2 ^ 63 then
      some (n + 1, Function.update stash key (some ⟨toString (n + 1), entry.expires, none⟩))
    else none

def expire (stash : Stash) (now : ℕ) (key : String) (seconds : ℕ) : Stash :=
  match stash.live now key with
  | none => stash
  | some entry =>
    Function.update stash key (some { entry with expires := some (now + seconds * 1000) })

end Stash

/-! ## Redemptions -/

structure Configuration where
  lifetime : ℕ
  attempts : ℕ

def SIGN_IN : String := "1"

def key (authority username code : String) : String := authority ++ ":" ++ username ++ ":" ++ code

inductive Caller
  | authenticate
  | confirm (identity : String)
deriving DecidableEq

def Caller.accepts (caller : Caller) (username value : String) : Bool :=
  match caller with
  | .authenticate => value = SIGN_IN ∨ value = username
  | .confirm identity => value = identity

inductive Error
  | expired
  | tooManyAttempts
  | failed
deriving DecidableEq

/-- When a code was spent, and which of the codes that were issued it is. -/
structure Spent where
  time : ℕ
  issue : Option ℕ
deriving DecidableEq

/-- Where a redemption is: before each of its commands, or past the last of them. -/
inductive Stage
  | incr
  | expire (attempt : ℤ)
  | get
  | del (issued : String)
  | clear (issued : String) (spent : Spent)
  | redeemed (issued : String) (spent : Spent)
  | refused (error : Error)
deriving DecidableEq

structure Redemption where
  authority : String
  username : String
  code : String
  caller : Caller
  stage : Stage
deriving DecidableEq

namespace Redemption

def key (r : Redemption) : String := Otp.key r.authority r.username r.code

def attempts (r : Redemption) : String := Otp.key r.authority r.username "attempts"

def accepts (r : Redemption) (value : String) : Bool := r.caller.accepts r.username value

def reading (r : Redemption) : Bool :=
  match r.stage with
  | .del _ => true
  | _ => false

/-- What was answered for a code that is spent, which one it is and when. -/
def spent (r : Redemption) : Option (String × Spent) :=
  match r.stage with
  | .clear issued spent | .redeemed issued spent => some (issued, spent)
  | _ => none

end Redemption

def admitted (configuration : Configuration) (attempt : ℤ) : Stage :=
  if attempt > configuration.attempts then .refused .tooManyAttempts else .get

/-- `redeem`, from one command to the next. -/
def redeem (configuration : Configuration) (stash : Stash) (now : ℕ) (r : Redemption) :
    Option (Stage × Stash) :=
  match r.stage with
  | .incr => match stash.incr now r.attempts with
    | none => some (.refused .failed, stash)
    | some (attempt, stash) =>
      some (if attempt = 1 then .expire attempt else admitted configuration attempt, stash)
  | .expire attempt =>
    some (admitted configuration attempt, stash.expire now r.attempts configuration.lifetime)
  | .get => match stash.get now r.key with
    | none => some (.refused .expired, stash)
    | some issued =>
      some (if r.accepts issued = true then .del issued else .refused .expired, stash)
  | .del issued => match stash.del now r.key with
    | (0, stash) => some (.refused .expired, stash)
    | (_, left) => some (.clear issued ⟨now, (stash.live now r.key).bind (·.issue)⟩, left)
  | .clear issued spent => some (.redeemed issued spent, (stash.del now r.attempts).2)
  | .redeemed .. | .refused _ => none

/-! ## Runs -/

structure Issue where
  authority : String
  username : String
  code : String
  value : String
  expires : ℕ

def Issue.key (issue : Issue) : String := Otp.key issue.authority issue.username issue.code

/-- `issued` is every code in the order it was, `now` the time by the stash. -/
structure State where
  stash : Stash
  issued : List Issue
  redemptions : List Redemption
  now : ℕ

def State.init : State := ⟨fun _ => none, [], [], 0⟩

/-- What `randomInt` draws is a number of six digits. The lifetimes of a manifest are whole seconds,
as what sets an expiration takes no other. -/
inductive Act
  | issue (authority username : String) (identity : Option String) (lifetime : Option ℕ) (code : ℕ)
  | authenticate (authority credentials : String)
  | confirm (authority username code identity : String)
  | turn (k : ℕ)
  | wait (ms : ℕ)

section
variable (configuration : Configuration) (decoded : String → String)

/-- `authenticate`, to where it redeems: the username and the code of what the credentials say. -/
def redemption (authority credentials : String) : Option Redemption :=
  match ((decoded credentials).toList.splitOn ':').map String.ofList with
  | username :: code :: _ => some ⟨authority, username, code, .authenticate, .incr⟩
  | _ => none

def step (s : State) : Act → Option State
  | .issue authority username identity lifetime code =>
    if 100000 ≤ code ∧ code < 1000000 then
      let value := identity.getD SIGN_IN
      let seconds := lifetime.getD configuration.lifetime
      let key := key authority username (toString code)
      some { s with
        stash := s.stash.set s.now key value seconds s.issued.length
        issued := s.issued ++
          [⟨authority, username, toString code, value, s.now + seconds * 1000⟩] }
    else none
  | .authenticate authority credentials =>
    match redemption decoded authority credentials with
    | none => some s
    | some r => some { s with redemptions := s.redemptions ++ [r] }
  | .confirm authority username code identity => some
      { s with redemptions := s.redemptions ++
        [⟨authority, username, code, .confirm identity, .incr⟩] }
  | .turn k => match s.redemptions[k]? with
    | none => none
    | some r => (redeem configuration s.stash s.now r).map fun (stage, stash) =>
      { s with stash := stash, redemptions := s.redemptions.set k { r with stage := stage } }
  | .wait ms => some { s with now := s.now + ms }

end

def counts (code : String) : Bool :=
  code = "attempts" ∨ ":attempts".toList.isSuffixOf code.toList

def last (issued : List Issue) (k : String) : Option Issue :=
  issued.reverse.find? fun issue => issue.key = k

/-- What a redemption reads and takes is no counter, nor a code that was issued for another authority
or username, and no code that is another's or that it would not take is drawn anew under a key it has
read. -/
def Told (s : State) : Act → Prop
  | .turn k => ∀ r ∈ s.redemptions[k]?, r.stage = .get →
    (counts r.code = true → ∀ value ∈ s.stash.get s.now r.key, r.accepts value = false) ∧
    ∀ issue ∈ last s.issued r.key, s.now < issue.expires → r.accepts issue.value = true →
      issue.authority = r.authority ∧ issue.username = r.username
  | .issue authority username identity _ code => ∀ r ∈ s.redemptions, r.reading = true →
    key authority username (toString code) = r.key →
      authority = r.authority ∧ username = r.username ∧ r.accepts (identity.getD SIGN_IN) = true
  | _ => True

instance (s : State) : ∀ a, Decidable (Told s a)
  | .turn k => inferInstanceAs (Decidable (∀ r ∈ s.redemptions[k]?, r.stage = .get →
    (counts r.code = true → ∀ value ∈ s.stash.get s.now r.key, r.accepts value = false) ∧
    ∀ issue ∈ last s.issued r.key, s.now < issue.expires → r.accepts issue.value = true →
      issue.authority = r.authority ∧ issue.username = r.username))
  | .issue authority username identity _ code => inferInstanceAs (Decidable (∀ r ∈ s.redemptions,
    r.reading = true → key authority username (toString code) = r.key →
      authority = r.authority ∧ username = r.username ∧ r.accepts (identity.getD SIGN_IN) = true))
  | .authenticate .. | .confirm .. | .wait _ => isTrue trivial

/-! ## Keys -/

theorem toList_key (authority username code : String) : (key authority username code).toList =
    (authority.toList ++ ':' :: username.toList) ++ ':' :: code.toList := by
  simp only [key, String.toList_append, List.append_assoc]
  rfl

theorem key_inj {authority username code code' : String}
    (h : key authority username code = key authority username code') : code = code' := by
  have hlists := congrArg String.toList h
  rw [toList_key, toList_key] at hlists
  have hcodes := List.append_cancel_left hlists
  exact String.toList_inj.mp (List.cons.inj hcodes).2

theorem key_ne_attempts {code : String} (h : counts code = false) (authority username a u : String) :
    key authority username code ≠ key a u "attempts" := by
  intro hkeys
  have hlists := congrArg String.toList hkeys
  rw [toList_key, toList_key] at hlists
  obtain ⟨hname, hends⟩ : code ≠ "attempts" ∧ ¬":attempts".toList <:+ code.toList := by
    simpa only [counts, decide_eq_false_iff_not, not_or, List.isSuffixOf_iff_suffix] using h
  have hattempts : ':' :: code.toList ≠ ':' :: "attempts".toList := fun hsame =>
    hname (String.toList_inj.mp (List.cons.inj hsame).2)
  have hmine : ':' :: code.toList <:+ (a.toList ++ ':' :: u.toList) ++ ':' :: "attempts".toList :=
    ⟨_, hlists⟩
  rcases List.suffix_or_suffix_of_suffix hmine (List.suffix_append _ _) with hsuffix | hsuffix
  · -- a code with a shorter end would begin within the name
    rcases List.suffix_cons_iff.mp hsuffix with hsame | hwithin
    · exact hattempts hsame
    · have hmem : ':' ∈ "attempts".toList := hwithin.subset (List.mem_cons_self ..)
      exact absurd hmem (by decide)
  · rcases List.suffix_cons_iff.mp hsuffix with hsame | hwithin
    · exact hattempts hsame.symm
    · exact hends hwithin

theorem counts_toString (n : ℕ) : counts (toString n) = false := by
  have hdigit : ∀ c ∈ (toString n).toList, c.isDigit = true := by
    intro c hc
    rw [Nat.toString_eq_repr, Nat.toList_repr] at hc
    exact Nat.isDigit_of_mem_toDigits (by decide) (by decide) hc
  refine decide_eq_false (not_or.mpr ⟨fun hname => ?_, fun hends => ?_⟩)
  · exact absurd (hdigit 'a' (by rw [hname]; decide)) (by decide)
  · have hsuffix := List.isSuffixOf_iff_suffix.mp hends
    exact absurd (hdigit 'a' (hsuffix.subset (by decide))) (by decide)

/-! ## What stands in the stash -/

def Counter (k : String) : Prop := ∃ authority username, k = key authority username "attempts"

/-- A code was issued for just what a redemption says, with what it takes. -/
structure Backs (issue : Issue) (r : Redemption) : Prop where
  authority : issue.authority = r.authority
  username : issue.username = r.username
  code : issue.code = r.code
  accepts : r.accepts issue.value = true

def Standing (issued : List Issue) (redemptions : List Redemption) (k : String) (entry : Entry) :
    Prop :=
  match entry.issue with
  | none => Counter k
  | some j => (∃ issue, issued[j]? = some issue ∧ last issued k = some issue ∧
      issue.value = entry.value ∧ entry.expires = some issue.expires) ∧
    ∀ r ∈ redemptions, ∀ value spent, r.spent = some (value, spent) → spent.issue ≠ some j

theorem standing_mono {issued issued' : List Issue} {redemptions redemptions' : List Redemption}
    {k : String} {entry : Entry} (h : Standing issued redemptions k entry)
    (hissued : ∀ (j : ℕ) issue, issued[j]? = some issue → last issued k = some issue →
      issued'[j]? = some issue ∧ last issued' k = some issue)
    (hspent : ∀ (j : ℕ) issue, issued[j]? = some issue → last issued k = some issue →
      ∀ r ∈ redemptions', ∀ value spent, r.spent = some (value, spent) → spent.issue = some j →
        ∃ r ∈ redemptions, r.spent = some (value, spent)) :
    Standing issued' redemptions' k entry := by
  unfold Standing at h ⊢
  split
  · rename_i hnone
    rwa [hnone] at h
  · rename_i j hj
    rw [hj] at h
    obtain ⟨⟨issue, hissue, hlast, hrest⟩, hunspent⟩ := h
    obtain ⟨hissue', hlast'⟩ := hissued j issue hissue hlast
    refine ⟨⟨issue, hissue', hlast', hrest⟩, fun r hr value spent hrspent hsame => ?_⟩
    obtain ⟨old, hold, holdspent⟩ := hspent j issue hissue hlast r hr value spent hrspent hsame
    exact hunspent old hold value spent holdspent hsame

structure Sound (s : State) : Prop where
  coded : ∀ issue ∈ s.issued, counts issue.code = false
  stash : ∀ k entry, s.stash k = some entry → Standing s.issued s.redemptions k entry
  reading : ∀ r ∈ s.redemptions, r.reading = true → ¬Counter r.key ∧
    ∀ issue, last s.issued r.key = some issue → Backs issue r
  spent : ∀ r ∈ s.redemptions, ∀ value spent, r.spent = some (value, spent) →
    ∃ j issue, spent.issue = some j ∧ s.issued[j]? = some issue ∧ Backs issue r ∧
      spent.time < issue.expires
  once : ∀ (k k' : ℕ) (r r' : Redemption) (value value' : String) (spent spent' : Spent),
    s.redemptions[k]? = some r →
    s.redemptions[k']? = some r' → r.spent = some (value, spent) → r'.spent = some (value', spent') →
      spent.issue = spent'.issue → k = k'

theorem sound_init : Sound State.init where
  coded _ h := absurd h List.not_mem_nil
  stash _ _ h := nomatch h
  reading _ h := absurd h List.not_mem_nil
  spent _ h := absurd h List.not_mem_nil
  once _ _ _ _ _ _ _ _ h := nomatch h

theorem last_append (issued : List Issue) (issue : Issue) (k : String) :
    last (issued ++ [issue]) k = if issue.key = k then some issue else last issued k := by
  rw [last, List.reverse_append, List.reverse_singleton, List.singleton_append, List.find?_cons]
  split_ifs with hkey
  · rw [decide_eq_true hkey]
  · rw [decide_eq_false hkey]
    rfl

theorem key_of_last {issued : List Issue} {k : String} {issue : Issue}
    (h : last issued k = some issue) : issue ∈ issued ∧ issue.key = k := by
  rw [last] at h
  have hkey := List.find?_some h
  exact ⟨List.mem_reverse.mp (List.mem_of_find?_eq_some h), of_decide_eq_true hkey⟩

theorem Sound.not_counter {s : State} (h : Sound s) {k : String} {issue : Issue}
    (hlast : last s.issued k = some issue) : ¬Counter k := by
  obtain ⟨hmem, rfl⟩ := key_of_last hlast
  rintro ⟨a, u, hkey⟩
  exact key_ne_attempts (h.coded issue hmem) _ _ a u hkey

theorem Sound.count {s : State} (h : Sound s) {k : String} (hk : Counter k) {entry : Option Entry}
    (hentry : ∀ e, entry = some e → e.issue = none) :
    Sound { s with stash := Function.update s.stash k entry } where
  coded := h.coded
  stash k' e he := by
    dsimp only at he
    by_cases hkk : k' = k
    · subst hkk
      rw [Function.update_self] at he
      simp only [Standing, hentry e he]
      exact hk
    · rw [Function.update_of_ne hkk] at he
      exact h.stash k' e he
  reading := h.reading
  spent := h.spent
  once := h.once

theorem getElem?_set_cases {α : Type*} {l : List α} {k i : ℕ} {a x : α}
    (h : (l.set k a)[i]? = some x) : (i = k ∧ x = a) ∨ (i ≠ k ∧ l[i]? = some x) := by
  rw [List.getElem?_set] at h
  split_ifs at h with hi hlt
  · exact .inl ⟨hi.symm, (Option.some.inj h).symm⟩
  · exact .inr ⟨fun hik => hi hik.symm, h⟩

theorem Sound.move {s : State} (h : Sound s) {k : ℕ} {r : Redemption}
    (hr : s.redemptions[k]? = some r) {stage : Stage}
    (hspent : { r with stage := stage }.spent = r.spent)
    (hreading : { r with stage := stage }.reading = true → ¬Counter r.key ∧
      ∀ issue, last s.issued r.key = some issue → Backs issue r) :
    Sound { s with redemptions := s.redemptions.set k { r with stage := stage } } where
  coded := h.coded
  stash k' e he := by
    refine standing_mono (h.stash k' e he) (fun _ _ hissue hlast => ⟨hissue, hlast⟩)
      fun _ _ _ _ r' hr' value spent hr'spent _ => ?_
    rcases List.mem_or_eq_of_mem_set hr' with hr' | rfl
    · exact ⟨r', hr', hr'spent⟩
    · exact ⟨r, List.mem_of_getElem? hr, hspent.symm.trans hr'spent⟩
  reading r' hr' hr'reading := by
    rcases List.mem_or_eq_of_mem_set hr' with hr' | rfl
    · exact h.reading r' hr' hr'reading
    · obtain ⟨hcounter, hbacks⟩ := hreading hr'reading
      refine ⟨hcounter, fun issue hlast => ?_⟩
      have hissue := hbacks issue hlast
      exact ⟨hissue.authority, hissue.username, hissue.code, hissue.accepts⟩
  spent r' hr' value spent hr'spent := by
    rcases List.mem_or_eq_of_mem_set hr' with hr' | rfl
    · exact h.spent r' hr' value spent hr'spent
    · obtain ⟨j, issue, hj, hissue, hbacks, htime⟩ :=
        h.spent r (List.mem_of_getElem? hr) value spent (hspent ▸ hr'spent)
      have hmoved : Backs issue { r with stage := stage } :=
        ⟨hbacks.authority, hbacks.username, hbacks.code, hbacks.accepts⟩
      exact ⟨j, issue, hj, hissue, hmoved, htime⟩
  once i i' x x' value value' spent spent' hx hx' hxspent hx'spent hsame := by
    have hold (i : ℕ) (x : Redemption)
        (hx : (s.redemptions.set k { r with stage := stage })[i]? = some x) :
        ∃ y, s.redemptions[i]? = some y ∧ y.spent = x.spent := by
      rcases getElem?_set_cases hx with ⟨rfl, rfl⟩ | ⟨-, hx⟩
      · exact ⟨r, hr, hspent.symm⟩
      · exact ⟨x, hx, rfl⟩
    obtain ⟨y, hy, hyspent⟩ := hold i x hx
    obtain ⟨y', hy', hy'spent⟩ := hold i' x' hx'
    exact h.once i i' y y' value value' spent spent' hy hy' (hyspent.trans hxspent)
      (hy'spent.trans hx'spent) hsame

theorem Sound.spend {s : State} (h : Sound s) {k : ℕ} {r : Redemption}
    (hr : s.redemptions[k]? = some r) {value : String} (hstage : r.stage = .del value) {entry : Entry}
    (hentry : s.stash r.key = some entry) (hlive : entry.expires.all (s.now < ·) = true) :
    Sound { s with
      stash := Function.update s.stash r.key none
      redemptions := s.redemptions.set k { r with stage := .clear value ⟨s.now, entry.issue⟩ } } := by
  have hmem := List.mem_of_getElem? hr
  have hrreading : r.reading = true := by rw [Redemption.reading, hstage]
  obtain ⟨hcounter, hbacks⟩ := h.reading r hmem hrreading
  obtain ⟨j, hissue⟩ : ∃ j, entry.issue = some j := by
    refine Option.ne_none_iff_exists'.mp fun hnone => hcounter ?_
    have hstanding := h.stash r.key entry hentry
    rwa [Standing, hnone] at hstanding
  have hstanding := h.stash r.key entry hentry
  rw [Standing, hissue] at hstanding
  obtain ⟨⟨issue, hj, hlast, -, hexpires⟩, hunspent⟩ := hstanding
  have hcleared {x : Redemption} {v : String} {spent : Spent}
      (hx : x = { r with stage := .clear value ⟨s.now, entry.issue⟩ })
      (hxspent : x.spent = some (v, spent)) : spent = ⟨s.now, some j⟩ := by
    subst hx
    obtain ⟨-, rfl⟩ := Prod.mk.inj (Option.some.inj hxspent)
    rw [hissue]
  have hnever : ∀ {x v spent}, x ∈ s.redemptions → x.spent = some (v, spent) → spent.issue ≠ some j :=
    fun hx hxspent => hunspent _ hx _ _ hxspent
  refine ⟨h.coded, fun k' e he => ?_, fun x hx hxreading => ?_, fun x hx v spent hxspent => ?_, ?_⟩
  · dsimp only at he
    have hne : k' ≠ r.key := by
      rintro rfl
      rw [Function.update_self] at he
      exact nomatch he
    rw [Function.update_of_ne hne] at he
    refine standing_mono (h.stash k' e he) (fun _ _ hissue hlast => ⟨hissue, hlast⟩)
      fun j' issue' hissue' hlast' x hx v spent hxspent hsame => ?_
    rcases List.mem_or_eq_of_mem_set hx with hx | hx
    · exact ⟨x, hx, hxspent⟩
    · -- what stands under another key is another code
      obtain rfl := hcleared hx hxspent
      obtain rfl := Option.some.inj hsame
      obtain rfl := Option.some.inj (hj.symm.trans hissue')
      exact absurd ((key_of_last hlast').2.symm.trans (key_of_last hlast).2) hne
  · rcases List.mem_or_eq_of_mem_set hx with hx | rfl
    · exact h.reading x hx hxreading
    · exact nomatch hxreading
  · rcases List.mem_or_eq_of_mem_set hx with hx | hx
    · exact h.spent x hx v spent hxspent
    · obtain rfl := hcleared hx hxspent
      subst hx
      rw [hexpires] at hlive
      have hissue := hbacks issue hlast
      exact ⟨j, issue, rfl, hj, ⟨hissue.authority, hissue.username, hissue.code, hissue.accepts⟩,
        of_decide_eq_true hlive⟩
  · intro i i' x x' v v' spent spent' hx hx' hxspent hx'spent hsame
    rcases getElem?_set_cases hx with ⟨hi, hxr⟩ | ⟨-, hold⟩ <;>
      rcases getElem?_set_cases hx' with ⟨hi', hx'r⟩ | ⟨-, hold'⟩
    · exact hi.trans hi'.symm
    · obtain rfl := hcleared hxr hxspent
      exact absurd hsame.symm (hnever (List.mem_of_getElem? hold') hx'spent)
    · obtain rfl := hcleared hx'r hx'spent
      exact absurd hsame (hnever (List.mem_of_getElem? hold) hxspent)
    · exact h.once i i' x x' v v' spent spent' hold hold' hxspent hx'spent hsame

theorem Sound.issue {s : State} (h : Sound s) {issue : Issue} (hcode : counts issue.code = false)
    {seconds : ℕ} (hexpires : issue.expires = s.now + seconds * 1000)
    (htold : ∀ r ∈ s.redemptions, r.reading = true → issue.key = r.key → Backs issue r) :
    Sound { s with
      stash := s.stash.set s.now issue.key issue.value seconds s.issued.length
      issued := s.issued ++ [issue] } := by
  have hkept {j : ℕ} {other : Issue} (hother : s.issued[j]? = some other) :
      (s.issued ++ [issue])[j]? = some other := by
    obtain ⟨hlt, -⟩ := List.getElem?_eq_some_iff.mp hother
    exact (List.getElem?_append_left hlt).trans hother
  refine ⟨fun other hother => ?_, fun k e he => ?_, fun r hr hreading => ?_,
    fun r hr value spent hspent => ?_, h.once⟩
  · rcases List.mem_append.mp hother with hother | hother
    · exact h.coded other hother
    · exact List.mem_singleton.mp hother ▸ hcode
  · dsimp only [Stash.set] at he
    by_cases hk : k = issue.key
    · subst hk
      rw [Function.update_self] at he
      obtain rfl := Option.some.inj he
      refine ⟨⟨issue, List.getElem?_concat_length, ?_, rfl, congrArg some hexpires.symm⟩,
        fun r hr value spent hspent hnew => ?_⟩
      · rw [last_append, if_pos rfl]
      · -- what is spent was issued before
        obtain ⟨j, other, hj, hother, -⟩ := h.spent r hr value spent hspent
        obtain rfl := Option.some.inj (hj.symm.trans hnew)
        exact absurd (List.getElem?_eq_some_iff.mp hother).1 (Nat.lt_irrefl _)
    · rw [Function.update_of_ne hk] at he
      refine standing_mono (h.stash k e he) (fun _ _ hother hlast => ⟨hkept hother, ?_⟩)
        fun _ _ _ _ r hr _ _ hrspent _ => ⟨r, hr, hrspent⟩
      rw [last_append, if_neg (Ne.symm hk), hlast]
  · obtain ⟨hcounter, hbacks⟩ := h.reading r hr hreading
    refine ⟨hcounter, fun other hother => ?_⟩
    dsimp only at hother
    rw [last_append] at hother
    split_ifs at hother with hkey
    · exact Option.some.inj hother ▸ htold r hr hreading hkey
    · exact hbacks other hother
  · obtain ⟨j, other, hj, hother, hrest⟩ := h.spent r hr value spent hspent
    exact ⟨j, other, hj, hkept hother, hrest⟩

/-! ## The commands -/

theorem Stash.live_eq_some {stash : Stash} {now : ℕ} {k : String} {entry : Entry} :
    stash.live now k = some entry ↔ stash k = some entry ∧ entry.expires.all (now < ·) = true := by
  simp only [Stash.live, Option.filter_eq_some_iff]

theorem Sound.issue_counter {s : State} (h : Sound s) {k : String} (hk : Counter k) {entry : Entry}
    (hentry : s.stash k = some entry) : entry.issue = none := by
  have hstanding := h.stash k entry hentry
  unfold Standing at hstanding
  split at hstanding
  · assumption
  · obtain ⟨⟨issue, -, hlast, -⟩, -⟩ := hstanding
    exact absurd hk (h.not_counter hlast)

theorem Sound.incr {s : State} (h : Sound s) {k : String} (hk : Counter k) {n : ℤ} {stash : Stash}
    (hincr : s.stash.incr s.now k = some (n, stash)) : Sound { s with stash := stash } := by
  unfold Stash.incr at hincr
  split at hincr
  · obtain ⟨-, rfl⟩ := Prod.mk.inj (Option.some.inj hincr)
    exact h.count hk fun e he => Option.some.inj he ▸ rfl
  · obtain ⟨m, -, hm⟩ := Option.bind_eq_some_iff.mp hincr
    split_ifs at hm
    obtain ⟨-, rfl⟩ := Prod.mk.inj (Option.some.inj hm)
    exact h.count hk fun e he => Option.some.inj he ▸ rfl

theorem Sound.expire {s : State} (h : Sound s) {k : String} (hk : Counter k) (seconds : ℕ) :
    Sound { s with stash := s.stash.expire s.now k seconds } := by
  unfold Stash.expire
  split
  · exact h
  · rename_i entry hlive
    have hissue := h.issue_counter hk (Stash.live_eq_some.mp hlive).1
    exact h.count hk fun e he => Option.some.inj he ▸ hissue

theorem Sound.del {s : State} (h : Sound s) {k : String} (hk : Counter k) :
    Sound { s with stash := (s.stash.del s.now k).2 } := by
  unfold Stash.del
  split
  · exact h
  · exact h.count hk fun e he => nomatch he

theorem counter_attempts (r : Redemption) : Counter r.attempts := ⟨_, _, rfl⟩

theorem Sound.get {s : State} (h : Sound s) {k : ℕ} {r : Redemption}
    (hr : s.redemptions[k]? = some r) (hstage : r.stage = .get) (htold : Told s (.turn k))
    {value : String} (hget : s.stash.get s.now r.key = some value) (haccepts : r.accepts value = true) :
    ¬Counter r.key ∧ ∀ issue, last s.issued r.key = some issue → Backs issue r := by
  obtain ⟨hcounts, hissued⟩ := htold r hr hstage
  have hcounter : ¬Counter r.key := by
    rintro ⟨a, u, hkey⟩
    cases hcode : counts r.code with
    | false => exact key_ne_attempts hcode _ _ a u hkey
    | true =>
      have hrefused := hcounts hcode value hget
      exact nomatch haccepts.symm.trans hrefused
  refine ⟨hcounter, fun issue hlast => ?_⟩
  obtain ⟨entry, hlive, rfl⟩ := Option.map_eq_some_iff.mp hget
  obtain ⟨hentry, hexpires⟩ := Stash.live_eq_some.mp hlive
  have hstanding := h.stash r.key entry hentry
  unfold Standing at hstanding
  split at hstanding
  · exact absurd hstanding hcounter
  · obtain ⟨⟨issue', -, hlast', hvalue, htime⟩, -⟩ := hstanding
    obtain rfl := Option.some.inj (hlast.symm.trans hlast')
    rw [htime] at hexpires
    rw [← hvalue] at haccepts
    obtain ⟨hauthority, husername⟩ := hissued issue hlast (of_decide_eq_true hexpires) haccepts
    have hkey := (key_of_last hlast).2
    rw [Issue.key, Redemption.key, hauthority, husername] at hkey
    exact ⟨hauthority, husername, key_inj hkey, haccepts⟩

section
variable {configuration : Configuration} {decoded : String → String}

theorem Sound.turn {s : State} (h : Sound s) {k : ℕ} {r : Redemption}
    (hr : s.redemptions[k]? = some r) (htold : Told s (.turn k)) {stage : Stage} {stash : Stash}
    (hredeem : redeem configuration s.stash s.now r = some (stage, stash)) :
    Sound { s with stash := stash, redemptions := s.redemptions.set k { r with stage := stage } } := by
  have hcounter := counter_attempts r
  unfold redeem at hredeem
  cases hstage : r.stage with
  | incr =>
    have hspent : r.spent = none := by rw [Redemption.spent, hstage]
    simp only [hstage] at hredeem
    split at hredeem
    · obtain ⟨rfl, rfl⟩ := Prod.mk.inj (Option.some.inj hredeem)
      exact h.move hr hspent.symm fun hreading => nomatch hreading
    · rename_i attempt counted hincr
      obtain ⟨rfl, rfl⟩ := Prod.mk.inj (Option.some.inj hredeem)
      refine (h.incr hcounter hincr).move hr ?_ ?_
      · rw [hspent]
        unfold admitted
        split_ifs <;> rfl
      · unfold admitted
        split_ifs <;> exact fun hreading => nomatch hreading
  | expire attempt =>
    have hspent : r.spent = none := by rw [Redemption.spent, hstage]
    simp only [hstage] at hredeem
    obtain ⟨rfl, rfl⟩ := Prod.mk.inj (Option.some.inj hredeem)
    refine (h.expire hcounter _).move hr ?_ ?_
    · rw [hspent]
      unfold admitted
      split_ifs <;> rfl
    · unfold admitted
      split_ifs <;> exact fun hreading => nomatch hreading
  | get =>
    have hspent : r.spent = none := by rw [Redemption.spent, hstage]
    simp only [hstage] at hredeem
    split at hredeem
    · obtain ⟨rfl, rfl⟩ := Prod.mk.inj (Option.some.inj hredeem)
      exact h.move hr hspent.symm fun hreading => nomatch hreading
    · rename_i value hget
      obtain ⟨rfl, rfl⟩ := Prod.mk.inj (Option.some.inj hredeem)
      refine h.move hr ?_ ?_
      · rw [hspent]
        split_ifs <;> rfl
      · split_ifs with haccepts
        · exact fun _ => h.get hr hstage htold hget haccepts
        · exact fun hreading => nomatch hreading
  | del value =>
    have hspent : r.spent = none := by rw [Redemption.spent, hstage]
    simp only [hstage, Stash.del] at hredeem
    cases hlive : s.stash.live s.now r.key with
    | none =>
      simp only [hlive] at hredeem
      obtain ⟨rfl, rfl⟩ := Prod.mk.inj (Option.some.inj hredeem)
      exact h.move hr hspent.symm fun hreading => nomatch hreading
    | some entry =>
      simp only [hlive] at hredeem
      obtain ⟨rfl, rfl⟩ := Prod.mk.inj (Option.some.inj hredeem)
      obtain ⟨hentry, hexpires⟩ := Stash.live_eq_some.mp hlive
      exact h.spend hr hstage hentry hexpires
  | clear value spent =>
    have hspent : r.spent = some (value, spent) := by rw [Redemption.spent, hstage]
    simp only [hstage] at hredeem
    obtain ⟨rfl, rfl⟩ := Prod.mk.inj (Option.some.inj hredeem)
    exact (h.del hcounter).move hr hspent.symm fun hreading => nomatch hreading
  | redeemed _ _ | refused _ =>
    simp only [hstage] at hredeem
    exact nomatch hredeem

theorem Sound.begin {s : State} (h : Sound s) {r : Redemption} (hstage : r.stage = .incr) :
    Sound { s with redemptions := s.redemptions ++ [r] } := by
  have hspent : r.spent = none := by rw [Redemption.spent, hstage]
  have hreading : r.reading = false := by rw [Redemption.reading, hstage]
  have hold {x : Redemption} {value : String} {spent : Spent} (hx : x ∈ s.redemptions ++ [r])
      (hxspent : x.spent = some (value, spent)) : x ∈ s.redemptions := by
    rcases List.mem_append.mp hx with hx | hx
    · exact hx
    · obtain rfl := List.mem_singleton.mp hx
      exact nomatch hspent.symm.trans hxspent
  have hindex {i : ℕ} {x : Redemption} {value : String} {spent : Spent}
      (hx : (s.redemptions ++ [r])[i]? = some x) (hxspent : x.spent = some (value, spent)) :
      s.redemptions[i]? = some x := by
    rw [List.getElem?_append] at hx
    split_ifs at hx
    · exact hx
    · obtain rfl := List.mem_singleton.mp (List.mem_of_getElem? hx)
      exact nomatch hspent.symm.trans hxspent
  refine ⟨h.coded, fun k e he => ?_, fun x hx hxreading => ?_, fun x hx value spent hxspent => ?_, ?_⟩
  · exact standing_mono (h.stash k e he) (fun _ _ hissue hlast => ⟨hissue, hlast⟩)
      fun _ _ _ _ x hx _ _ hxspent _ => ⟨x, hold hx hxspent, hxspent⟩
  · rcases List.mem_append.mp hx with hx | hx
    · exact h.reading x hx hxreading
    · obtain rfl := List.mem_singleton.mp hx
      exact nomatch hreading.symm.trans hxreading
  · exact h.spent x (hold hx hxspent) value spent hxspent
  · intro i i' x x' value value' spent spent' hx hx' hxspent hx'spent hsame
    exact h.once i i' x x' value value' spent spent' (hindex hx hxspent) (hindex hx' hx'spent)
      hxspent hx'spent hsame

theorem step_sound {s t : State} {a : Act} (h : Sound s) (htold : Told s a)
    (hstep : step configuration decoded s a = some t) : Sound t := by
  cases a with
  | issue authority username identity lifetime code =>
    simp only [step] at hstep
    split_ifs at hstep
    obtain rfl := Option.some.inj hstep
    let seconds := lifetime.getD configuration.lifetime
    let issue : Issue := ⟨authority, username, toString code, identity.getD SIGN_IN,
      s.now + seconds * 1000⟩
    have hbacks (r : Redemption) (hr : r ∈ s.redemptions) (hreading : r.reading = true)
        (hkey : issue.key = r.key) : Backs issue r := by
      obtain ⟨rfl, rfl, haccepts⟩ := htold r hr hreading hkey
      exact ⟨rfl, rfl, key_inj hkey, haccepts⟩
    have hcode : counts issue.code = false := counts_toString code
    have hexpires : issue.expires = s.now + seconds * 1000 := rfl
    exact h.issue hcode hexpires hbacks
  | authenticate authority credentials =>
    simp only [step] at hstep
    split at hstep
    · exact Option.some.inj hstep ▸ h
    · rename_i r hr
      obtain rfl := Option.some.inj hstep
      unfold redemption at hr
      split at hr
      · exact h.begin (Option.some.inj hr ▸ rfl)
      · exact nomatch hr
  | confirm authority username code identity =>
    obtain rfl := Option.some.inj hstep
    exact h.begin rfl
  | turn k =>
    simp only [step] at hstep
    split at hstep
    · exact nomatch hstep
    · rename_i r hr
      obtain ⟨⟨stage, stash⟩, hredeem, rfl⟩ := Option.map_eq_some_iff.mp hstep
      exact h.turn hr htold hredeem
  | wait ms =>
    obtain rfl := Option.some.inj hstep
    exact ⟨h.coded, h.stash, h.reading, h.spent, h.once⟩

/-- Every redemption that succeeds spends a code that was issued for its authority and username, that
it takes and that has not expired, and no two of them spend one. -/
theorem redeemed_issued {acts : List Act} {s : State}
    (htold : Along (step configuration decoded) Told .init acts)
    (hrun : run (step configuration decoded) .init acts = some s) :
    (∀ r ∈ s.redemptions, ∀ value spent, r.spent = some (value, spent) →
      ∃ j issue, spent.issue = some j ∧ s.issued[j]? = some issue ∧ Backs issue r ∧
        spent.time < issue.expires) ∧
    ∀ (k k' : ℕ) (r r' : Redemption) (value value' : String) (spent spent' : Spent),
      s.redemptions[k]? = some r → s.redemptions[k']? = some r' →
        r.spent = some (value, spent) → r'.spent = some (value', spent') →
          spent.issue = spent'.issue → k = k' := by
  have hsound : Sound s := run_invariant
    (fun _ _ _ hI hok h => step_sound hI hok h) sound_init htold hrun
  exact ⟨hsound.spent, hsound.once⟩

end

def fiveMinutes : Configuration := ⟨300, 5⟩

def asksAttempts : List Act :=
  [.authenticate "nex" "alice:attempts", .turn 0, .turn 0, .turn 0, .turn 0, .turn 0]

/-- The counter of attempts is read as a code, one attempt makes it what signs in. -/
theorem attempts_redeemed : ∃ s, run (step fiveMinutes id) .init asksAttempts = some s ∧
    s.issued.length = 0 ∧ s.redemptions =
      [⟨"nex", "alice", "attempts", .authenticate, .redeemed SIGN_IN ⟨0, none⟩⟩] := by
  have h : (run (step fiveMinutes id) .init asksAttempts).map
      (fun s => (s.issued.length, s.redemptions)) =
        some (0, [⟨"nex", "alice", "attempts", .authenticate, .redeemed SIGN_IN ⟨0, none⟩⟩]) := by
    decide +kernel
  obtain ⟨s, hs, hpair⟩ := Option.map_eq_some_iff.mp h
  obtain ⟨hissued, hredemptions⟩ := Prod.mk.inj hpair
  exact ⟨s, hs, hissued, hredemptions⟩

def signsIn : List Act :=
  [.issue "nex" "alice" none none 123456, .authenticate "nex" "alice:123456",
    .turn 0, .turn 0, .turn 0, .turn 0, .turn 0]

theorem redeemed_issued_alice : ∃ s, run (step fiveMinutes id) .init signsIn = some s ∧
    s.redemptions = [⟨"nex", "alice", "123456", .authenticate, .redeemed SIGN_IN ⟨0, some 0⟩⟩] ∧
      ∀ r ∈ s.redemptions, ∃ (j : ℕ) (issue : Issue), s.issued[j]? = some issue ∧ Backs issue r := by
  have h : (run (step fiveMinutes id) .init signsIn).map (·.redemptions) =
      some [⟨"nex", "alice", "123456", .authenticate, .redeemed SIGN_IN ⟨0, some 0⟩⟩] := by
    decide +kernel
  have htold : Along (step fiveMinutes id) Told .init signsIn := by decide +kernel
  obtain ⟨s, hs, hredemptions⟩ := Option.map_eq_some_iff.mp h
  refine ⟨s, hs, hredemptions, fun r hr => ?_⟩
  have hspent : r.spent = some (SIGN_IN, ⟨0, some 0⟩) := by
    rw [hredemptions] at hr
    rw [List.mem_singleton.mp hr]
    rfl
  obtain ⟨j, issue, -, hissue, hbacks, -⟩ := (redeemed_issued htold hs).1 r hr _ _ hspent
  exact ⟨j, issue, hissue, hbacks⟩

end Toa.Identity.Otp
