import CommandShell.Yaml.Token

/-! Scanning of anchors, tags and directives. -/
namespace CommandShell.Yaml.Scan

def anchorName : Scan Bytes := do
  skip
  let name ← takeWhile isNameChar
  let ends ← satisfies (fun c => "?:,]\x7d%@`".toList.contains c) 0
  if name.isEmpty || !((← blankOrEnd 0) || ends) then refuse
  return Utf8.encode name

/-- A byte written as a percent sign and two hexadecimal digits. -/
private def uriByte : Scan UInt8 := do
  if !(← sees '%') then refuse
  match (← peek 1).bind hexDigit?, (← peek 2).bind hexDigit? with
  | some a, some b =>
    skipMany 3
    return (16 * a + b).toUInt8
  | _, _ => refuse

/-- An escaped character: as many bytes as the first one announces. -/
private def uriEscape : Scan Bytes := do
  let a ← uriByte
  let more ←
    if a < 0x80 then pure 0
    else if a &&& 0xE0 = 0xC0 then pure 1
    else if a &&& 0xF0 = 0xE0 then pure 2
    else if a &&& 0xF8 = 0xF0 then pure 3
    else refuse
  return a :: (← tail more)
where
  tail : Nat → Scan Bytes
    | 0 => return []
    | n + 1 => do
      let b ← uriByte
      if b &&& 0xC0 ≠ 0x80 then refuse
      return b :: (← tail n)

private def isUriChar (c : Char) : Bool :=
  isNameChar c || ";/?:@&=+$,.!~*'()[]%".toList.contains c

/-- The rest of a tag; `head` is what has been read of it after its exclamation mark. -/
private def tagUri (head : Option Bytes) : Scan Bytes := do
  let text ← go ((← get).rest.length + 2)
  if text.isEmpty && head.isNone then refuse
  return head.getD [] ++ text
where
  go : Nat → Scan Bytes
    | 0 => refuse
    | n + 1 => do
      match ← peek 0 with
      | none => return []
      | some c =>
        if !isUriChar c then return []
        else if c == '%' then
          let text ← uriEscape
          return text ++ (← go n)
        else
          skip
          return Bytes.ofChar c ++ (← go n)

/-- An exclamation mark, a name, and perhaps another exclamation mark. -/
private def tagHandle (directive : Bool) : Scan Bytes := do
  if !(← sees '!') then refuse
  skip
  let name ← takeWhile isNameChar
  if ← sees '!' then
    skip
    return "!" ++ Utf8.encode name ++ "!"
  if directive && !name.isEmpty then refuse
  return "!" ++ Utf8.encode name

/-- A tag in any of its forms, as a handle and what follows it. -/
def tag : Scan (Bytes × Bytes) := do
  let result ← form
  if !(← blankOrEnd 0) then refuse
  return result
where
  form : Scan (Bytes × Bytes) := do
    if (← peek 1) == some '<' then
      skipMany 2
      let suffix ← tagUri none
      if !(← sees '>') then refuse
      skip
      return ([], suffix)
    let handle ← tagHandle false
    if handle.length > 1 && Bytes.endsWith handle "!" then return (handle, ← tagUri none)
    let suffix ← tagUri (some (handle.drop 1))
    if suffix.isEmpty then return ([], "!") else return ("!", suffix)

private def versionNumber : Scan Nat := do
  let digits ← takeWhile Char.isDigit
  if digits.isEmpty || digits.length > 2 then refuse
  return digits.foldl (fun n d => 10 * n + (d.toNat - 48)) 0

private def versionDirective : Scan Token := do
  skipWhile isBlank
  let major ← versionNumber
  if !(← sees '.') then refuse
  skip
  return .version major (← versionNumber)

private def tagDirective : Scan Token := do
  skipWhile isBlank
  let name ← tagHandle true
  if !(← satisfies isBlank 0) then refuse
  skipWhile isBlank
  let expansion ← tagUri none
  if !(← blankOrEnd 0) then refuse
  return .handle name expansion

def directive : Scan Token := do
  skip
  let name ← takeWhile isNameChar
  if name.isEmpty || !(← blankOrEnd 0) then refuse
  let token ←
    if name == "YAML".toList then versionDirective
    else if name == "TAG".toList then tagDirective
    else refuse
  skipWhile isBlank
  if ← sees '#' then skipWhile fun c => !isBreak c
  if !(← breakOrEnd 0) then refuse
  discard takeBreak
  return token

end CommandShell.Yaml.Scan
