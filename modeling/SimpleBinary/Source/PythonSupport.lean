import SimpleBinary.Source.File

/-!
# What generated Python relies on

The lines of the file that every other one imports: its two error types and the functions that
check bounds and counts and read and write texts.
-/

namespace SimpleBinary.Python

def support : Lines := [
  "class DecodeError(ValueError):",
  "    pass",
  "",
  "",
  "def check_bounds(buf, offset: int, needed: int, path: str) -> None:",
  "    if offset + needed > len(buf):",
  "        raise DecodeError(f\"\x7bpath\x7d needs \x7bneeded\x7d bytes at offset "
    ++ "\x7boffset\x7d but the buffer holds \x7blen(buf)\x7d\")",
  "",
  "",
  "class EncodeError(ValueError):",
  "    pass",
  "",
  "",
  "def check_group(buf, offset: int, count: int, element_length: int, path: str) -> None:",
  "    element_length = max(element_length, 1)",
  "    if count * element_length > len(buf) - offset:",
  "        raise DecodeError(",
  "            f\"group \x7bpath\x7d at offset \x7boffset\x7d declares \x7bcount\x7d "
    ++ "elements of at least \x7belement_length\x7d bytes, \"",
  "            \"more than the buffer holds\"",
  "        )",
  "",
  "",
  "def read_chars(buf, offset: int, length: int) -> str:",
  "    raw = bytes(buf[offset:offset + length])",
  "    return raw.split(b\"\\0\", 1)[0].decode(\"latin-1\")",
  "",
  "",
  "def write_chars(buf, offset: int, length: int, value: str, path: str) -> None:",
  "    data = value.encode(\"latin-1\")",
  "    if len(data) > length:",
  "        raise EncodeError(f\"\x7bpath\x7d holds \x7blength\x7d characters but the "
    ++ "value has \x7blen(data)\x7d\")",
  "    buf[offset:offset + length] = data.ljust(length, b\"\\0\")",
  "",
  "",
  "def decode_text(data: bytes, encoding: str, path: str) -> str:",
  "    try:",
  "        return data.decode(encoding)",
  "    except (UnicodeDecodeError, LookupError) as err:",
  "        raise DecodeError(f\"\x7bpath\x7d is not valid \x7bencoding\x7d\") from err"]

end SimpleBinary.Python
