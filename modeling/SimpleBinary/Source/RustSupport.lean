import SimpleBinary.Source.File

/-!
# What generated Rust relies on

The lines at the end of a package's root: its two error types, and the functions that check bounds,
counts and texts.
-/

namespace SimpleBinary.Rust

def support : Lines := [
  "use std::fmt;",
  "",
  "#[derive(Debug, Clone, PartialEq, Eq)]",
  "pub enum DecodeError \x7b",
  "    /// A read of `needed` bytes at `offset` ran past the end of the buffer.",
  "    OutOfBounds \x7b path: &'static str, offset: usize, needed: usize, len: usize \x7d,",
  "    /// A group header declares more elements than the buffer can hold.",
  "    GroupOverrun \x7b path: &'static str, offset: usize, count: usize, element_length: "
    ++ "usize \x7d,",
  "    /// The message header names a different template.",
  "    TemplateMismatch \x7b message: &'static str, expected: u64, found: u64 \x7d,",
  "    /// Var-data declared as text is not valid UTF-8.",
  "    InvalidText \x7b path: &'static str \x7d,",
  "\x7d",
  "",
  "impl fmt::Display for DecodeError \x7b",
  "    fn fmt(&self, f: &mut fmt::Formatter) -> fmt::Result \x7b",
  "        match self \x7b",
  "            DecodeError::OutOfBounds \x7b path, offset, needed, len \x7d => write!(",
  "                f,",
  "                \"\x7b\x7d needs \x7b\x7d bytes at offset \x7b\x7d but the buffer "
    ++ "holds \x7b\x7d\",",
  "                path, needed, offset, len",
  "            ),",
  "            DecodeError::GroupOverrun \x7b path, offset, count, element_length \x7d => write!(",
  "                f,",
  "                \"group \x7b\x7d at offset \x7b\x7d declares \x7b\x7d elements of at "
    ++ "least \x7b\x7d bytes, more than the buffer holds\",",
  "                path, offset, count, element_length",
  "            ),",
  "            DecodeError::TemplateMismatch \x7b message, expected, found \x7d => write!(",
  "                f,",
  "                \"\x7b\x7d has template id \x7b\x7d but the header says \x7b\x7d\",",
  "                message, expected, found",
  "            ),",
  "            DecodeError::InvalidText \x7b path \x7d => write!(f, \"\x7b\x7d is not "
    ++ "valid UTF-8\", path),",
  "        \x7d",
  "    \x7d",
  "\x7d",
  "",
  "impl std::error::Error for DecodeError \x7b\x7d",
  "",
  "#[derive(Debug, Clone, PartialEq, Eq)]",
  "pub enum EncodeError \x7b",
  "    /// A group count or var-data length does not fit its header field.",
  "    TooLong \x7b path: &'static str, len: usize, max: u64 \x7d,",
  "\x7d",
  "",
  "impl fmt::Display for EncodeError \x7b",
  "    fn fmt(&self, f: &mut fmt::Formatter) -> fmt::Result \x7b",
  "        match self \x7b",
  "            EncodeError::TooLong \x7b path, len, max \x7d => \x7b",
  "                write!(f, \"\x7b\x7d has \x7b\x7d entries but its header holds at most "
    ++ "\x7b\x7d\", path, len, max)",
  "            \x7d",
  "        \x7d",
  "    \x7d",
  "\x7d",
  "",
  "impl std::error::Error for EncodeError \x7b\x7d",
  "",
  "pub(crate) fn checked_len<T: TryFrom<usize>>(len: usize, max: u64, path: &'static str) "
    ++ "-> Result<T, EncodeError> \x7b",
  "    T::try_from(len).map_err(|_| EncodeError::TooLong \x7b path, len, max \x7d)",
  "\x7d",
  "",
  "pub(crate) fn slice<'b>(buf: &'b [u8], offset: usize, len: usize, path: &'static str) "
    ++ "-> Result<&'b [u8], DecodeError> \x7b",
  "    match offset.checked_add(len) \x7b",
  "        Some(end) if end <= buf.len() => Ok(&buf[offset..end]),",
  "        _ => Err(DecodeError::OutOfBounds \x7b path, offset, needed: len, len: buf.len() \x7d),",
  "    \x7d",
  "\x7d",
  "",
  "pub(crate) fn read<const N: usize>(buf: &[u8], offset: usize, path: &'static str) -> "
    ++ "Result<[u8; N], DecodeError> \x7b",
  "    let mut out = [0u8; N];",
  "    out.copy_from_slice(slice(buf, offset, N, path)?);",
  "    Ok(out)",
  "\x7d",
  "",
  "/// `element_length` is the block plus the group and var-data headers each",
  "/// element carries. Counts are bounded at one byte per element minimum.",
  "pub(crate) fn check_group(",
  "    buf: &[u8],",
  "    offset: usize,",
  "    count: usize,",
  "    element_length: usize,",
  "    path: &'static str,",
  ") -> Result<(), DecodeError> \x7b",
  "    let element_length = element_length.max(1);",
  "    match count.checked_mul(element_length) \x7b",
  "        Some(total) if total <= buf.len().saturating_sub(offset) => Ok(()),",
  "        _ => Err(DecodeError::GroupOverrun \x7b path, offset, count, element_length \x7d),",
  "    \x7d",
  "\x7d",
  "",
  "pub(crate) fn text(bytes: &[u8], path: &'static str) -> Result<String, DecodeError> \x7b",
  "    String::from_utf8(bytes.to_vec()).map_err(|_| DecodeError::InvalidText \x7b path \x7d)",
  "\x7d"]

end SimpleBinary.Rust
