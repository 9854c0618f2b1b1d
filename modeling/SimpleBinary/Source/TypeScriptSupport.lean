import SimpleBinary.Source.File

/-!
# What generated TypeScript relies on

The lines of the file that every other one imports: its two error types, the functions that check
bounds and counts and read and write texts, and the buffer that encoders append to.
-/

namespace SimpleBinary.TypeScript

def support : Lines := [
  "export class DecodeError extends Error \x7b",
  "  constructor(message: string) \x7b",
  "    super(message);",
  "    this.name = 'DecodeError';",
  "  \x7d",
  "\x7d",
  "",
  "export function checkBounds(view: DataView, offset: number, needed: number, path: "
    ++ "string): void \x7b",
  "  if (offset + needed > view.byteLength) \x7b",
  "    throw new DecodeError(`$\x7bpath\x7d needs $\x7bneeded\x7d bytes at offset "
    ++ "$\x7boffset\x7d but the buffer holds $\x7bview.byteLength\x7d`);",
  "  \x7d",
  "\x7d",
  "",
  "export class EncodeError extends Error \x7b",
  "  constructor(message: string) \x7b",
  "    super(message);",
  "    this.name = 'EncodeError';",
  "  \x7d",
  "\x7d",
  "",
  "/** `elementLength` counts the block and the group and var-data headers of one element. */",
  "export function checkGroup(view: DataView, offset: number, count: number, "
    ++ "elementLength: number, path: string): void \x7b",
  "  const least = Math.max(elementLength, 1);",
  "  if (count * least > view.byteLength - offset) \x7b",
  "    throw new DecodeError(",
  "      `group $\x7bpath\x7d at offset $\x7boffset\x7d declares $\x7bcount\x7d elements "
    ++ "of at least $\x7bleast\x7d bytes, more than the buffer holds`,",
  "    );",
  "  \x7d",
  "\x7d",
  "",
  "export function checkLength(length: number, max: number, path: string): void \x7b",
  "  if (length > max) \x7b",
  "    throw new EncodeError(`$\x7bpath\x7d has $\x7blength\x7d entries but its header "
    ++ "holds at most $\x7bmax\x7d`);",
  "  \x7d",
  "\x7d",
  "",
  "/** Fixed-length char arrays: NUL padded, one byte per character. */",
  "export function readChars(view: DataView, offset: number, length: number): string \x7b",
  "  let text = '';",
  "  for (let i = 0; i < length; i++) \x7b",
  "    const code = view.getUint8(offset + i);",
  "    if (code === 0) \x7b",
  "      break;",
  "    \x7d",
  "    text += String.fromCharCode(code);",
  "  \x7d",
  "  return text;",
  "\x7d",
  "",
  "export function writeChars(view: DataView, offset: number, length: number, value: "
    ++ "string, path: string): void \x7b",
  "  if (value.length > length) \x7b",
  "    throw new EncodeError(`$\x7bpath\x7d holds at most $\x7blength\x7d characters`);",
  "  \x7d",
  "  for (let i = 0; i < length; i++) \x7b",
  "    view.setUint8(offset + i, i < value.length ? value.charCodeAt(i) & 0xff : 0);",
  "  \x7d",
  "\x7d",
  "",
  "export function readBytes(view: DataView, offset: number, length: number, path: "
    ++ "string): Uint8Array \x7b",
  "  checkBounds(view, offset, length, path);",
  "  const start = view.byteOffset + offset;",
  "  return new Uint8Array(view.buffer.slice(start, start + length));",
  "\x7d",
  "",
  "export function readText(view: DataView, offset: number, length: number, encoding: "
    ++ "string, path: string): string \x7b",
  "  const bytes = readBytes(view, offset, length, path);",
  "  try \x7b",
  "    return new TextDecoder(encoding.toLowerCase(), \x7b fatal: true \x7d).decode(bytes);",
  "  \x7d catch (err) \x7b",
  "    throw new DecodeError(`$\x7bpath\x7d is not valid $\x7bencoding\x7d`);",
  "  \x7d",
  "\x7d",
  "",
  "/** A growable byte buffer for encoders. Views taken before a `reserve` may be stale. */",
  "export class Writer \x7b",
  "  private bytes = new Uint8Array(256);",
  "  private used = 0;",
  "",
  "  get length(): number \x7b",
  "    return this.used;",
  "  \x7d",
  "",
  "  /** Appends `n` zero bytes and returns their offset. */",
  "  reserve(n: number): number \x7b",
  "    const at = this.used;",
  "    if (at + n > this.bytes.length) \x7b",
  "      let size = this.bytes.length * 2;",
  "      while (size < at + n) \x7b",
  "        size *= 2;",
  "      \x7d",
  "      const grown = new Uint8Array(size);",
  "      grown.set(this.bytes.subarray(0, at));",
  "      this.bytes = grown;",
  "    \x7d",
  "    this.used += n;",
  "    return at;",
  "  \x7d",
  "",
  "  append(bytes: Uint8Array): void \x7b",
  "    const at = this.reserve(bytes.length);",
  "    this.bytes.set(bytes, at);",
  "  \x7d",
  "",
  "  view(): DataView \x7b",
  "    return new DataView(this.bytes.buffer, 0, this.used);",
  "  \x7d",
  "",
  "  finish(): Uint8Array \x7b",
  "    return this.bytes.slice(0, this.used);",
  "  \x7d",
  "\x7d"]

end SimpleBinary.TypeScript
