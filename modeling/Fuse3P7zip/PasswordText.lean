/-
# What the decoders get for a password

A password is bytes up to the two callbacks, and these have iconv make a wide
text of it. In UTF-8, on the command line, in the environment, on stdin, in a
passfile or printed by one, with newlines behind it or none, it comes out as
the text it is: what follows is as if handlers and decoders knew it
(`password_is_text`), and it is the same for opening and for extracting.
-/
import Fuse3P7zip.Detection
import Fuse3P7zip.Passwords
import Fuse3P7zip.Unicode

namespace Fuse3P7zip

open Fuse
open Utf8 (encode)

/-- The descriptor from UTF-8 to WCHAR_T: a text comes out as its code points. -/
structure Iconv.Wide (cd : Iconv Char UInt32) : Prop where
  convert : ∀ s, (cd.convert cd.initial (encode s)).map Prod.fst = some (s.map Char.val)

/-- Such a descriptor. -/
def Iconv.wide : Iconv Char UInt32 :=
  ⟨Unit, (), fun s b => (Utf8.decode b).map fun t => (t.map Char.val, s), fun s => ([], s)⟩

theorem Iconv.wide_wide : Iconv.wide.Wide := by
  refine ⟨fun s => ?_⟩
  show ((Utf8.decode (encode s)).map fun t => (t.map Char.val, ())).map Prod.fst = _
  rw [Utf8.decode_encode]
  rfl

theorem wideStr_encode {loc : Locale} {cd : Iconv Char UInt32} (hcd : loc.wchar = some cd) (h : cd.Wide) {text : Str}
    (hnul : '\x00' ∉ text) : wideStr loc (encode text) = .ok (text.map Char.val) := by
  obtain ⟨⟨out, t⟩, hout, hval⟩ := Option.map_eq_some_iff.mp (h.convert text)
  obtain rfl : out = text.map Char.val := hval
  have hstr : cStr (encode text) = encode text := by
    apply cStr_of_no_nul
    rwa [Utf8.mem_encode_iff (by decide)]
  have hlen : (text.map Char.val).length ≤ (encode text).length * 4 := by
    have hle := Utf8.length_le_encode text
    rw [List.length_map]
    omega
  unfold wideStr withDescriptor
  rw [hcd]
  refine bind_eq_ok.mpr ⟨text.map Char.val, ?_, congrArg Except.ok ?_⟩
  · rw [hstr]
    exact iconv_eq_ok.mpr ⟨t, hout, hlen⟩
  · refine List.takeWhile_eq_self_iff.mpr fun v hv => ?_
    obtain ⟨c, hc, rfl⟩ := List.mem_map.mp hv
    refine decide_eq_true fun h0 => hnul ?_
    have hzero : c = '\x00' := Char.ext h0
    exact hzero ▸ hc

/-! ### Where the text is given -/

/-- Newlines behind a text that ends in none. -/
theorem append_newlines {r rest tail : Str} {n : ℕ} (h : List.replicate n '\n' = rest ++ tail)
    (hr : (r ++ rest).getLast? ≠ some '\n') : rest = [] := by
  rcases List.eq_nil_or_concat rest with rfl | ⟨before, c, rfl⟩
  · rfl
  · have hc : c = '\n' := by
      apply List.eq_of_mem_replicate (n := n)
      rw [h]
      simp
    exact absurd (by simp [hc]) hr

theorem Chomped.unique {str r r' : Str} (h : Chomped str r) (h' : Chomped str r') : r = r' := by
  obtain ⟨⟨n, hn⟩, hr⟩ := h
  obtain ⟨⟨m, hm⟩, hr'⟩ := h'
  rcases List.append_eq_append_iff.mp (hn.symm.trans hm) with ⟨rest, rfl, hrest⟩ | ⟨rest, rfl, hrest⟩
  · rw [append_newlines hrest hr', List.append_nil]
  · rw [append_newlines hrest hr, List.append_nil]

/-- The bytes are a text that does not end in a newline, and then newlines. -/
def Lined (bytes text : Str) : Prop :=
  (∃ c ∈ text.getLast?, c ≠ '\n') ∧ ∃ n, bytes = encode text ++ List.replicate n '\n'

theorem chomp_lined {bytes text : Str} (h : Lined bytes text) : chomp bytes = encode text := by
  obtain ⟨⟨c, hc, hne⟩, n, hn⟩ := h
  have hlast : (encode text).getLast? ≠ some '\n' := by
    rw [Ne, Utf8.getLast?_encode_iff (by decide)]
    exact fun he => hne (Option.some.inj (hc.symm.trans he))
  have hchomped : Chomped bytes (encode text) := ⟨⟨n, hn⟩, hlast⟩
  refine Chomped.unique ((chomped_chomp_iff bytes).mpr ?_) hchomped
  have htext : encode text ≠ [] := by
    rw [Ne, Utf8.encode_eq_nil_iff]
    rintro rfl
    cases hc
  -- the last byte is no newline
  refine .inr ⟨(encode text).getLast htext, ?_, fun he => hlast ?_⟩
  · rw [hn]
    exact List.mem_append_left _ (List.getLast_mem htext)
  · rw [List.getLast?_eq_some_getLast htext, he]

/-- The ways to give a text as the password. -/
inductive Given (text : Str) (params : CmdParams) (penv : PasswordEnv) (archive : Str) (file : Passfile) : Prop
  | option : params.password = some (encode text) → Given text params penv archive file
  | stdin : params.password = none → params.passfile = some ['-'] → Lined penv.stdin text →
      Given text params penv archive file
  | environment : params.password = none →
      (∀ p ∈ params.passfile, p ≠ ['-'] ∧ penv.isRegularFile p = false) → penv.password = some (encode text) →
      Given text params penv archive file
  | content {passfile : Str} : params.password = none → TakesPassfile params penv passfile →
      file.executable = false → Lined file.content text → Given text params penv archive file
  | output {passfile out : Str} : params.password = none → TakesPassfile params penv passfile →
      file.executable = true → file.popen (PasswordFromFile.cmd ⟨archive, penv.absolute passfile⟩) = some out →
      Lined out text → Given text params penv archive file

theorem Lined.ne_nil {bytes text : Str} (h : Lined bytes text) : encode text ≠ [] := by
  obtain ⟨⟨c, hc, -⟩, -⟩ := h
  rw [Ne, Utf8.encode_eq_nil_iff]
  rintro rfl
  cases hc

/-- A password that is there is not read again. -/
theorem calls_twice {path archive password : Str} {file : Passfile} {n : ℕ}
    (h : PasswordFromFile.get ⟨archive, path⟩ [] file = .ok (password, n)) (hne : password ≠ []) (file' : Passfile) :
    (IPassword.ofFile path archive).calls [file, file'] = .ok ([password, password], n) :=
  calls_cons (IPassword.get_fromFile h) (calls_of_ne_nil _ hne [file'])

theorem cmdPassword_environment {params : CmdParams} {penv : PasswordEnv} {password : Str}
    (hp : params.password = none) (hf : ∀ p ∈ params.passfile, p ≠ ['-'] ∧ penv.isRegularFile p = false)
    (h : penv.password = some password) (archive : Str) : cmdPassword params archive penv = .fromString password := by
  have henv : envPassword penv archive = .fromString password := by
    unfold envPassword
    rw [h]
  unfold cmdPassword
  rw [hp]
  cases hpf : params.passfile with
  | none => exact henv
  | some p =>
    obtain ⟨hname, hno⟩ := hf p hpf
    simp only [if_neg hname, hno, Bool.false_eq_true, if_false]
    exact henv

/-- However it is given, both calls of `Fuse::password` return its bytes. -/
theorem calls_of_given {text : Str} (hnul : '\x00' ∉ text) {params : CmdParams} {penv : PasswordEnv} {archive : Str}
    {file : Passfile} (h : Given text params penv archive file) (file' : Passfile) :
    ∃ n, (cmdPassword params archive penv).calls [file, file'] = .ok ([encode text, encode text], n) := by
  cases h with
  | option hp =>
    unfold cmdPassword
    rw [hp]
    exact ⟨0, rfl⟩
  | stdin hp hf hl =>
    rw [cmdPassword_stdin hp hf, IPassword.ofStdin, chomp_lined hl]
    exact ⟨0, rfl⟩
  | environment hp hf he =>
    rw [cmdPassword_environment hp hf he]
    exact ⟨0, rfl⟩
  | content hp htakes hx hl =>
    rw [cmdPassword_file hp htakes]
    refine ⟨0, calls_twice ?_ hl.ne_nil file'⟩
    rw [PasswordFromFile.get_content _ hx, chomp_lined hl]
  | @output passfile out hp htakes hx hout hl =>
    have hclean : '\x00' ∉ out := by
      obtain ⟨-, n, rfl⟩ := hl
      rw [List.mem_append, Utf8.mem_encode_iff (by decide)]
      exact not_or.mpr ⟨hnul, fun hm => absurd (List.eq_of_mem_replicate hm) (by decide)⟩
    rw [cmdPassword_file hp htakes]
    refine ⟨1, calls_twice ?_ hl.ne_nil file'⟩
    rw [PasswordFromFile.get_output _ hx hout, execResult_of_no_nul hclean, chomp_lined hl]

/-! ### Handlers and decoders that know it -/

/-- The reply of `CryptoGetTextPassword`, for a decoder that knows the password. -/
def knownReply (text : Str) : Call → Option Reply
  | .cryptoGetTextPassword => some { password := text.map Char.val }
  | _ => none

def knownOpenReply (text : Str) : OpenCall → Option OpenReply
  | .cryptoGetTextPassword => some { password := text.map Char.val }
  | _ => none

/-- The environment without a password, with decoders that know it. -/
def Env.knowing (env : Env) (text : Str) : Env :=
  { env with password := [], extract := fun clock index => (env.extract clock index).knowing (knownReply text) }

def Handler.knowing (h : Handler) (text : Str) : Handler :=
  { h with «open» := h.open.knowing (knownOpenReply text) }

section knowing

variable {env : Env} {cd : Iconv Char UInt32} (hcd : env.wchar = some cd) (hwide : cd.Wide) {text : Str}
  (hnul : '\x00' ∉ text) (hpass : env.password = encode text)

include hcd hwide hnul hpass

theorem execute_knowing (clock : ℕ) (index : UInt32) :
    Extractor.execute env clock index = Extractor.execute (env.knowing text) clock index := by
  have hknown : ∀ s c r, knownReply text c = some r → Extractor.callback env s c = .ok (r, s) := by
    intro s c r h
    cases c with
    | cryptoGetTextPassword =>
      obtain rfl := Option.some.inj h
      rw [Extractor.callback, hpass, wideStr_encode hcd hwide hnul]
      rfl
    | _ => cases h
  have hother : ∀ s c, knownReply text c = none →
      Extractor.callback env s c = Extractor.callback (env.knowing text) s c := by
    intro s c h
    cases c with
    | cryptoGetTextPassword => cases h
    | setCompleted v => cases v <;> rfl
    | _ => rfl
  unfold Extractor.execute
  simp only [Client.run_knowing hknown hother]
  rfl

theorem serve_knowing (m : Mount) (req : Request) : serve env m req = serve (env.knowing text) m req := by
  cases req with
  | «open» path =>
    have hopen : ∀ fi, cbOpen env m path fi = cbOpen (env.knowing text) m path fi := by
      intro fi
      unfold cbOpen CiIterator.extract
      simp only [execute_knowing hcd hwide hnul hpass]
      rfl
    rw [serve, serve, hopen]
  | _ => rfl

theorem serveAll_knowing : ∀ (m : Mount) (reqs : List Request), serveAll env m reqs = serveAll (env.knowing text) m reqs
  | _, [] => rfl
  | m, req :: reqs => by
    rw [serveAll, serveAll, serve_knowing hcd hwide hnul hpass]
    simp only [serveAll_knowing _ reqs]

theorem run_open_knowing (d : Client OpenCall OpenReply (HRESULT × List Ref)) (s : Shared) :
    d.run (Shared.serve env) s = (d.knowing (knownOpenReply text)).run (Shared.serve (env.knowing text)) s := by
  refine Client.run_knowing (fun s c r h => ?_) (fun s c h => ?_) d s
  · cases c with
    | cryptoGetTextPassword =>
      obtain rfl := Option.some.inj h
      rw [Shared.serve, hpass, wideStr_encode hcd hwide hnul]
      rfl
    | _ => cases h
  · cases c with
    | cryptoGetTextPassword => cases h
    | _ => rfl

theorem detect_knowing (lib : ImplLib) : ∀ (formats : List (ImplFormat × Handler)) (l : Loop),
    Loop.detect env lib formats l =
      Loop.detect (env.knowing text) lib (formats.map fun x => (x.1, x.2.knowing text)) l
  | [], _ => rfl
  | (it, h) :: formats, l => by
    have hattempt : l.attempt env lib it h = l.attempt (env.knowing text) lib it (h.knowing text) := by
      unfold Loop.attempt
      simp only [run_open_knowing hcd hwide hnul hpass]
      rfl
    rw [List.map_cons, Loop.detect, Loop.detect, hattempt]
    simp only [detect_knowing lib formats]

end knowing

/-- **A password is a text.** However a text is given as the password, as long
as it is in UTF-8, both calls of `Fuse::password` get it, whatever becomes of
the passfile between them. With what the first returns the format is detected,
and with what the second returns any requests are served, as if handlers and
decoders knew the text and nobody asked. -/
theorem password_is_text {text : Str} (hnul : '\x00' ∉ text) {params : CmdParams} {penv : PasswordEnv} {archive : Str}
    {file : Passfile} (h : Given text params penv archive file) (file' : Passfile) :
    ∃ openPassword extractPassword n,
      (cmdPassword params archive penv).calls [file, file'] = .ok ([openPassword, extractPassword], n) ∧
      ∀ (env : Env) (cd : Iconv Char UInt32), env.wchar = some cd → cd.Wide →
        (env.password = openPassword → ∀ lib formats l, Loop.detect env lib formats l =
          Loop.detect (env.knowing text) lib (formats.map fun x => (x.1, x.2.knowing text)) l) ∧
        (env.password = extractPassword → ∀ m reqs, serveAll env m reqs = serveAll (env.knowing text) m reqs) := by
  obtain ⟨n, hcalls⟩ := calls_of_given hnul h file'
  refine ⟨_, _, n, hcalls, fun env cd hcd hwide => ⟨fun hpass lib formats l => ?_, fun hpass m reqs => ?_⟩⟩
  · exact detect_knowing hcd hwide hnul hpass lib formats l
  · exact serveAll_knowing hcd hwide hnul hpass m reqs

/-- A decoder that asks for the password and writes its low bytes. -/
def writesPassword : Decoder :=
  .call .cryptoGetTextPassword fun r => .call (.write (r.password.map UInt32.toUInt8)) fun _ => .ret sOk

/-- An `é` with a newline behind it, on stdin. -/
theorem password_is_text_stdin : serveAll
      { Env.plain writesPassword with wchar := some .wide, password := ['\u00C3', '\u00A9'] } (.single (.file ['a'] 1))
      [.open ['/', 'a']] =
    serveAll
      { Env.plain (.call (.write [0xE9]) fun _ => .ret sOk) with wchar := some .wide } (.single (.file ['a'] 1))
      [.open ['/', 'a']] := by
  have hlined : Lined (encode ['\u00E9', '\n']) ['\u00E9'] := ⟨⟨'\u00E9', rfl, by decide⟩, 1, by decide⟩
  have hgiven : Given ['\u00E9'] { passfile := some ['-'] } ⟨encode ['\u00E9', '\n'], fun _ => false, id, none, none⟩
      ['x'] ⟨false, fun _ => none, []⟩ := .stdin rfl rfl hlined
  obtain ⟨p, q, n, hcalls, h⟩ := password_is_text (by decide) hgiven ⟨false, fun _ => none, []⟩
  have hq : ['\u00C3', '\u00A9'] = q := by
    cases hcalls
    decide
  exact (h { Env.plain writesPassword with wchar := some .wide, password := ['\u00C3', '\u00A9'] } .wide rfl
    Iconv.wide_wide).2 hq _ _

end Fuse3P7zip
